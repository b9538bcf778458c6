import StabCircuit.Proofs.Meaning.Layers

/-!
# The meaning of written layers

The instructions that write a layer have the effect of the layer.  Writing groups
operations by name and sorts them, which does not matter as long as no qubit is
touched twice.
-/

namespace StabCircuit

namespace Layer

open StabCircuit.Action Instruction

/-! ## Groups -/

/-- Operations written group by group have the effect of the operations as they were listed. -/
theorem sameEffect_grouped {α : Type} {entries : List (String × α)}
    {write : String → List α → Instruction} {f : String × α → List Action}
    (hswap : entries.Pairwise fun a b => Swappable (f a) (f b))
    (hwrite : ∀ group ∈ (grouped entries).entries,
      (group.2.Pairwise fun v w => Swappable (f (group.1, v)) (f (group.1, w))) →
        SameEffect (write group.1 group.2).actions (group.2.flatMap fun v => f (group.1, v))) :
    SameEffect
      (((grouped entries).entries.map fun group => write group.1 group.2).flatMap
        Instruction.actions)
      (entries.flatMap f) := by
  have hperm := ungrouped_grouped_perm entries
  have hpairwise : (ungrouped (grouped entries)).Pairwise fun a b => Swappable (f a) (f b) :=
    (hperm.pairwise_iff fun h => h.symm).2 hswap
  have hgroups := (List.pairwise_flatMap.1 hpairwise).1
  have heach : ∀ group ∈ (grouped entries).entries, SameEffect (write group.1 group.2).actions
      (group.2.flatMap fun v => f (group.1, v)) := by
    intro group hgroup
    have hgroup' := hgroups group hgroup
    rw [List.pairwise_map] at hgroup'
    exact hwrite group hgroup hgroup'
  rw [List.flatMap_map]
  refine (SameEffect.flatMap heach).trans ?_
  have hreorder := SameEffect.of_perm hperm hpairwise
  simpa only [ungrouped, List.flatMap_assoc, List.flatMap_map] using hreorder

/-- The operations of a named gate on a pair. -/
def namedPair (entry : String × (Nat × Nat)) : List Action :=
  Instruction.actions
    { name := entry.1, targets := [.qubit entry.2.1, .qubit entry.2.2], args := [] }

theorem namedPair_of_kind {g : Gate} (h : g.kind = .clifford2) (p : Nat × Nat) :
    namedPair (g.name, p) = pieceActions g [] [.qubit p.1, .qubit p.2] := by
  simpa [namedPair] using actions_pairs h [p]

/-- Pairs written in one instruction may be listed in any order. -/
theorem sameEffect_pairInstruction {g : Gate} (h : g.kind = .clifford2) {pairs : List (Nat × Nat)}
    (hswap : pairs.Pairwise fun p q => Swappable (namedPair (g.name, p)) (namedPair (g.name, q))) :
    SameEffect (pairInstruction g.name pairs).actions
      (pairs.flatMap fun p => namedPair (g.name, p)) := by
  have hsorted := SameEffect.of_perm (List.mergeSort_perm pairs natPairLe).symm hswap
  refine SameEffect.trans (.of_eq ?_) hsorted.symm
  rw [pairInstruction, actions_pairs h]
  simp only [namedPair_of_kind h]

/-- Named gates on pairs have the same effect when they are grouped. -/
theorem sameEffect_groupedPairs {entries : List (String × (Nat × Nat))}
    (hkind : ∀ entry ∈ entries, ∃ g : Gate, entry.1 = g.name ∧ g.kind = .clifford2)
    (hswap : entries.Pairwise fun a b => Swappable (namedPair a) (namedPair b)) :
    SameEffect ((groupedPairs entries).flatMap Instruction.actions)
      (entries.flatMap namedPair) := by
  rw [groupedPairs_eq]
  refine sameEffect_grouped hswap fun group hgroup hpairwise => ?_
  obtain ⟨entry, hentry, hname⟩ := name_of_mem_grouped hgroup
  obtain ⟨g, hg, hkind⟩ := hkind entry hentry
  rw [hname, hg] at hpairwise ⊢
  exact sameEffect_pairInstruction hkind hpairwise

theorem sameEffect_pairInstructions {g : Gate} (h : g.kind = .clifford2)
    {pairs : List (Nat × Nat)}
    (hswap : pairs.Pairwise fun p q => Swappable (namedPair (g.name, p)) (namedPair (g.name, q))) :
    SameEffect ((pairInstructions g.name pairs).flatMap Instruction.actions)
      (pairs.flatMap fun p => namedPair (g.name, p)) := by
  unfold pairInstructions
  split
  · next hempty =>
    rw [List.isEmpty_iff.1 hempty]
    exact .refl _
  · simpa using sameEffect_pairInstruction h hswap

/-! ## Interactions -/

theorem sameEffect_interaction_gate (i : Interaction) :
    SameEffect (namedPair (i.gate.name, i.operands)) [i.action] := by
  rw [namedPair_of_kind (kind_interaction_gate i)]
  obtain ⟨a, b, P, Q⟩ := i
  have hsorted : SameEffect [controlled P P (sortedPair a b).1 (sortedPair a b).2]
      [controlled P P a b] := by
    rcases Nat.le_total a b with h | h
    · exact .of_eq (by simp [sortedPair, h])
    · simpa [sortedPair, h] using sameEffect_controlled_comm P P b a
  cases P <;> cases Q
  case x.z => exact sameEffect_controlled_comm .z .x b a
  case y.z => exact sameEffect_controlled_comm .z .y b a
  case x.x | y.y | z.z => exact hsorted
  all_goals exact .refl _

theorem quietOn_namedInteraction (i : Interaction) :
    QuietOn [i.a, i.b] (namedPair (i.gate.name, i.operands)) := by
  have hqubits := operands_perm i
  rw [namedPair_of_kind (kind_interaction_gate i)]
  have hcontrolled : ∃ P Q, i.gate = .controlled P Q := by
    unfold Interaction.gate
    split <;> exact ⟨_, _, rfl⟩
  obtain ⟨P, Q, hgate⟩ := hcontrolled
  rw [hgate]
  intro x hx
  obtain rfl : x = controlled P Q i.operands.1 i.operands.2 := by
    simpa [pieceActions, onTwo, Target.isClassical, Target.isRecord, Target.isSweep,
      Target.qubit?, Gate.kind, GateKind.isMetadata] using hx
  exact ⟨rfl, fun q hq => hqubits.subset hq⟩

theorem sameEffect_interactionInstructions {interactions : List Interaction}
    (hnodup : (interact interactions).slots.Nodup) :
    SameEffect ((interactionInstructions interactions).flatMap Instruction.actions)
      (interact interactions).actions := by
  have hswap := pairwise_swappable hnodup (fun i _ => quietOn_namedInteraction i)
    fun i _ => (quietOn_namedInteraction i).interpretedOn
  have hgrouped : SameEffect ((interactionInstructions interactions).flatMap Instruction.actions)
      ((interactions.map fun i => (i.gate.name, i.operands)).flatMap namedPair) := by
    refine sameEffect_groupedPairs (fun entry hentry => ?_) ?_
    · obtain ⟨i, -, rfl⟩ := List.mem_map.1 hentry
      exact ⟨i.gate, rfl, kind_interaction_gate i⟩
    · rw [List.pairwise_map]
      exact hswap.imp And.left
  refine hgrouped.trans ?_
  rw [List.flatMap_map, actions, List.map_eq_flatMap]
  exact SameEffect.flatMap fun i _ => sameEffect_interaction_gate i

/-! ## Swaps -/

theorem namedPair_swap (p : Nat × Nat) :
    namedPair (Gate.swap.name, p) = [exchange p.1 p.2] :=
  @namedPair_of_kind .swap rfl p

theorem namedPair_iswap (p : Nat × Nat) :
    namedPair (Gate.iswap.name, p) = [.iswap p.1 p.2] :=
  @namedPair_of_kind .iswap rfl p

theorem sameEffect_swapInstructions {pairs : List (Nat × Nat)}
    (hnodup : (swap pairs).slots.Nodup) :
    SameEffect ((pairInstructions Gate.swap.name pairs).flatMap Instruction.actions)
      (swap pairs).actions := by
  have hswap := pairwise_swappable hnodup (fun p _ => quietOn_exchange p.1 p.2)
    fun p _ => (quietOn_exchange p.1 p.2).interpretedOn
  have hwritten := @sameEffect_pairInstructions .swap rfl pairs
    (by simpa only [namedPair_swap] using hswap.imp And.left)
  simpa only [namedPair_swap, actions, List.map_eq_flatMap] using hwritten

theorem sameEffect_iswapInstructions {pairs : List (Nat × Nat)}
    (hnodup : (Layer.iswap pairs).slots.Nodup) :
    SameEffect ((pairInstructions Gate.iswap.name pairs).flatMap Instruction.actions)
      (Layer.iswap pairs).actions := by
  have hswap := pairwise_swappable hnodup (fun p _ => quietOn_iswap p.1 p.2)
    fun p _ => (quietOn_iswap p.1 p.2).interpretedOn
  have hwritten := @sameEffect_pairInstructions .iswap rfl pairs
    (by simpa only [namedPair_iswap] using hswap.imp And.left)
  simpa only [namedPair_iswap, actions, List.map_eq_flatMap] using hwritten

/-! ## Interactions followed by swaps -/

theorem sameEffect_fusedSwap {i : Interaction} {g : Gate} (h : fusedSwap? i = some g) :
    SameEffect (namedPair (g.name, i.operands)) [i.action, exchange i.a i.b] := by
  rw [namedPair_of_kind (kind_fusedSwap? h)]
  obtain ⟨a, b, P, Q⟩ := i
  cases P <;> cases Q <;> simp [fusedSwap?, Interaction.gate] at h <;> subst h
  case x.z =>
    exact (sameEffect_controlled_comm .z .x b a).append (sameEffect_exchange_comm b a)
  case z.x => exact .refl _
  case z.z =>
    have hcontrolled := sameEffect_interaction_gate ⟨a, b, .z, .z⟩
    rw [namedPair_of_kind (kind_interaction_gate _)] at hcontrolled
    exact hcontrolled.append (sameEffect_exchange_sorted a b)

theorem quietOn_fusedSwap {i : Interaction} {g : Gate} (h : fusedSwap? i = some g) :
    QuietOn [i.a, i.b] (namedPair (g.name, i.operands)) := by
  have hqubits := operands_perm i
  rw [namedPair_of_kind (kind_fusedSwap? h)]
  have hpair : ∃ Q, pieceActions g [] [.qubit i.operands.1, .qubit i.operands.2] =
      [controlled .z Q i.operands.1 i.operands.2, exchange i.operands.1 i.operands.2] := by
    unfold fusedSwap? at h
    split at h <;> cases h <;> exact ⟨_, rfl⟩
  obtain ⟨Q, hpair⟩ := hpair
  rw [hpair]
  intro x hx
  rcases List.mem_pair.1 hx with rfl | rfl
  · exact ⟨rfl, fun q hq => hqubits.subset hq⟩
  · exact ⟨rfl, fun q hq => hqubits.subset hq⟩

/-- The interactions of a layer that are written with their swap as one gate. -/
def fusedEntries (interactions : List Interaction) : List (String × (Nat × Nat)) :=
  interactions.filterMap fun i => (fusedSwap? i).map fun g => (g.name, i.operands)

theorem pairwise_fusedEntries {interactions : List Interaction}
    (hnodup : (interact interactions).slots.Nodup) :
    (fusedEntries interactions).Pairwise fun a b => Swappable (namedPair a) (namedPair b) := by
  have happart := (List.nodup_flatMap.1 hnodup).2
  rw [fusedEntries, List.pairwise_filterMap]
  refine happart.imp fun {i j} hij entry hentry other hother => ?_
  obtain ⟨g, hg, rfl⟩ := Option.map_eq_some_iff.1 hentry
  obtain ⟨g', hg', rfl⟩ := Option.map_eq_some_iff.1 hother
  have hi := quietOn_fusedSwap hg
  have hj := (quietOn_fusedSwap hg').interpretedOn
  exact swappable_blocks (fun x hx => (hi x hx).1) (fun y hy => (hj y hy).1)
    fun x hx y hy q hq hq' => hij ((hi x hx).2 q hq) ((hj y hy).2 q hq')

theorem sameEffect_fusedEntries (interactions : List Interaction) :
    SameEffect ((fusedEntries interactions).flatMap namedPair)
      (interactSwap (interactions.filter fun i => (fusedSwap? i).isSome)).actions := by
  induction interactions with
  | nil => exact .refl _
  | cons i interactions ih =>
    cases hfused : fusedSwap? i with
    | none => simpa [fusedEntries, hfused] using ih
    | some g =>
      have hhead := (sameEffect_fusedSwap hfused).append ih
      simpa [fusedEntries, hfused, actions] using hhead

/-- Interactions followed by swaps have the same effect when some pairs are written as one gate
and the others apart. -/
theorem sameEffect_interactSwapInstructions {interactions : List Interaction}
    (hnodup : (interact interactions).slots.Nodup) :
    SameEffect ((interactSwapInstructions interactions).flatMap Instruction.actions)
      (interactSwap interactions).actions := by
  let apart := interactions.filter fun i => (fusedSwap? i).isNone
  have hfused : SameEffect ((groupedPairs (fusedEntries interactions)).flatMap Instruction.actions)
      (interactSwap (interactions.filter fun i => (fusedSwap? i).isSome)).actions := by
    refine (sameEffect_groupedPairs (fun entry hentry => ?_)
      (pairwise_fusedEntries hnodup)).trans (sameEffect_fusedEntries interactions)
    obtain ⟨i, -, hi⟩ := List.mem_filterMap.1 hentry
    obtain ⟨g, hg, rfl⟩ := Option.map_eq_some_iff.1 hi
    exact ⟨g, rfl, kind_fusedSwap? hg⟩
  have hsub : apart.Sublist interactions := List.filter_sublist
  have hapart : (interact apart).slots.Nodup := hnodup.sublist (hsub.flatMap _)
  have hrest : SameEffect
      ((if apart.isEmpty then [] else interactionInstructions apart ++ [Instruction.tick] ++
        pairInstructions Gate.swap.name (apart.map Interaction.pair)).flatMap Instruction.actions)
      (interactSwap apart).actions := by
    split
    · next hempty =>
      rw [List.isEmpty_iff.1 hempty]
      exact .refl _
    · have hswaps : (swap (apart.map Interaction.pair)).slots.Nodup := by
        simp only [slots, List.flatMap_map]
        refine (List.Perm.nodup_iff (List.Perm.flatMap_left _ fun i _ => ?_)).2 hapart
        exact sortedPair_perm i.a i.b
      have hexchange : SameEffect (swap (apart.map Interaction.pair)).actions
          (apart.map fun i => exchange i.a i.b) := by
        rw [actions, List.map_map]
        exact SameEffect.map_congr fun i _ => sameEffect_exchange_sorted i.a i.b
      simp only [List.flatMap_append, List.flatMap_cons, List.flatMap_nil, actions_tick,
        List.append_nil]
      exact ((sameEffect_interactionInstructions hapart).append
        ((sameEffect_swapInstructions hswaps).trans hexchange)).trans
        (sameEffect_interactSwap hapart).symm
  have hboth := hfused.append hrest
  have hperm := List.filter_append_perm (fun i => (fusedSwap? i).isSome) interactions
  have hswap := pairwise_swappable hnodup
    (fun i _ => (quietOn_interaction i).append (quietOn_exchange i.a i.b))
    fun i _ => ((quietOn_interaction i).append (quietOn_exchange i.a i.b)).interpretedOn
  have hreorder := SameEffect.of_perm hperm.symm (hswap.imp And.left)
  rw [List.flatMap_append] at hreorder
  rw [interactSwapInstructions, List.flatMap_append]
  refine hboth.trans (SameEffect.trans (.of_eq ?_) hreorder.symm)
  simp [actions, apart]

/-! ## Rotations, resets and measurements -/

/-- The operations of a named gate on a qubit. -/
def namedSingle (entry : String × Nat) : List Action :=
  Instruction.actions { name := entry.1, targets := [.qubit entry.2], args := [] }

theorem namedSingle_rotate (r : Rotation) (q : Nat) : namedSingle (r.name, q) = [rotate r q] :=
  @actions_single (.rotate r) [.qubit q] [] (.inl rfl)

theorem actions_rotations (r : Rotation) (qubits : List Nat) :
    Instruction.actions { name := r.name, targets := qubits.map .qubit, args := [] } =
      qubits.flatMap fun q => namedSingle (r.name, q) := by
  simp only [namedSingle_rotate]
  have h := @actions_single (.rotate r) (qubits.map .qubit) [] (.inl rfl)
  rw [List.flatMap_map] at h
  exact h

theorem sameEffect_rotationInstructions (rotations : OrderedMap Nat Rotation) :
    SameEffect ((rotationInstructions rotations).flatMap Instruction.actions)
      (rotation rotations).actions := by
  have hmoving : (movingRotations rotations).flatMap namedSingle =
      rotationActions (rotations.entries.filter fun entry => !entry.2.isIdentity) := by
    rw [movingRotations, List.flatMap_map, rotationActions, List.map_eq_flatMap]
    simp only [namedSingle_rotate]
  have hswap : (movingRotations rotations).Pairwise fun a b =>
      Swappable (namedSingle a) (namedSingle b) := by
    have hnodup := rotations.nodup_keys
    rw [OrderedMap.keys, List.map_eq_flatMap] at hnodup
    have hall := pairwise_swappable hnodup (fun entry _ => quietOn_rotate entry.2 entry.1)
      fun entry _ => (quietOn_rotate entry.2 entry.1).interpretedOn
    rw [movingRotations, List.pairwise_map]
    simp only [namedSingle_rotate]
    exact (hall.imp And.left).sublist List.filter_sublist
  rw [rotationInstructions_eq]
  have hwritten := @sameEffect_grouped _ (movingRotations rotations)
    (fun name qubits => { name, targets := qubits.map .qubit, args := [] }) namedSingle hswap
  refine SameEffect.trans (hwritten fun group hgroup _ => ?_) ?_
  · obtain ⟨entry, hentry, hname⟩ := name_of_mem_grouped hgroup
    obtain ⟨e, -, rfl⟩ := List.mem_map.1 hentry
    rw [hname]
    exact .of_eq (actions_rotations e.2 group.2)
  · rw [hmoving]
    exact rotationActions_filter rotations.entries

theorem actions_reset (q : Nat) (b : Basis) :
    (onQubits (.reset b) [q] []).actions = [prepare q b] :=
  @actions_single (.reset b) [.qubit q] [] (.inr (.inl rfl))

theorem actions_measure (q : Nat) (b : Basis) (args : List Scalar) :
    (onQubits (.measure b) [q] args).actions = [.measure [(q, b)]] :=
  @actions_single (.measure b) [.qubit q] args (.inr (.inr (.inl rfl)))

theorem actions_productInstruction {p : MeasuredProduct} (hp : p.factors ≠ []) :
    (productInstruction p).actions = [.measure p.factors] := by
  have hgate : (productInstruction p).gate? = some .measureProduct := gate?_of_name rfl
  have hfactors : (factorTargets p.factors).filterMap Target.factor? = p.factors := by
    induction p.factors with
    | nil => rfl
    | cons factor factors ih => simpa [factorTargets, Target.factor?] using ih
  have hclassical : (factorTargets p.factors).any Target.isClassical = false := by
    simp [factorTargets, Target.isClassical, Target.isRecord, Target.isSweep]
  have hgroups : (productInstruction p).targetGroups = [factorTargets p.factors] := by
    rw [targetGroups, kind_of_gate? hgate]
    refine Target.productGroups_joinProduct (by simpa [factorTargets] using hp) fun t ht => ?_
    obtain ⟨factor, -, rfl⟩ := List.mem_map.1 ht
    rfl
  rw [actions_of_gate? hgate, hgroups, List.flatMap_singleton, pieceActions]
  simp only [Gate.kind, GateKind.isMetadata, hclassical, hfactors, Bool.false_eq_true, if_false]

/-- The instructions that write a sound and disjoint layer have the effect of the layer. -/
theorem sameEffect_instructions {l : Layer} (hsound : l.IsSound) (hdisjoint : l.isDisjoint = true)
    (hl : l.isLoop = false) :
    SameEffect (l.instructions.flatMap Instruction.actions) l.actions := by
  have hmetadata : ∀ {α : Type} (f : α → Instruction) (xs : List α),
      (∀ x, (f x).kind.isMetadata = true) →
        SameEffect ((xs.map f).flatMap Instruction.actions) [] := by
    intro α f xs hf
    rw [List.flatMap_map]
    refine .of_eq (List.flatMap_eq_nil_iff.2 fun x _ => ?_)
    exact actions_eq_nil_of_isMetadata (hf x)
  cases l with
  | empty => exact .refl _
  | rotation rotations => exact sameEffect_rotationInstructions rotations
  | interact interactions =>
    exact sameEffect_interactionInstructions (nodup_of_isDisjoint hdisjoint rfl)
  | swap pairs => exact sameEffect_swapInstructions (nodup_of_isDisjoint hdisjoint rfl)
  | iswap pairs => exact sameEffect_iswapInstructions (nodup_of_isDisjoint hdisjoint rfl)
  | interactSwap interactions =>
    exact sameEffect_interactSwapInstructions (nodup_of_isDisjoint hdisjoint rfl)
  | reset resets =>
    refine .of_eq ?_
    rw [Layer.instructions, List.flatMap_map, Layer.actions, List.map_eq_flatMap]
    exact List.flatMap_congr fun entry _ => actions_reset entry.1 entry.2
  | measure targets =>
    refine .of_eq ?_
    rw [Layer.instructions, List.flatMap_map, Layer.actions, List.map_eq_flatMap]
    exact List.flatMap_congr fun t _ => actions_measure t.qubit t.basis t.args
  | product products =>
    refine .of_eq ?_
    rw [Layer.instructions, List.flatMap_map, Layer.actions, List.map_eq_flatMap]
    exact List.flatMap_congr fun p hp => actions_productInstruction (hsound p hp)
  | coords positions =>
    refine hmetadata _ positions.entries fun entry => ?_
    rw [kind_of_gate? (@gate?_of_name _ .qubitCoords rfl)]
    rfl
  | shift offset =>
    refine hmetadata (fun args => { name := Gate.shiftCoords.name, targets := [], args }) [offset]
      fun args => ?_
    rw [kind_of_gate? (@gate?_of_name _ .shiftCoords rfl)]
    rfl
  | annotations instructions | feedback instructions | noise instructions => exact .refl _
  | loop count body => simp [isLoop] at hl

end Layer

end StabCircuit
