import StabCircuit.Proofs.Layer.Disjointness

/-!
# What written layers show

Writing a layer groups its operations by gate and sorts them.  What the written
instructions show piece by piece is therefore a rearrangement of what the
operations of the layer show one by one.
-/

namespace StabCircuit

namespace Layer

variable {β : Type} (f : Gate → List Int → List Target → List β)

/-- What a gate shows on a pair of qubits. -/
def shownPair (g : Gate) (p : Nat × Nat) : List β := f g [] [.qubit p.1, .qubit p.2]

/-- What an interaction followed by a swap shows: one gate where there is one, else two. -/
def shownInteractSwap (i : Interaction) : List β :=
  match fusedSwap? i with
  | some g => shownPair f g i.operands
  | none => shownPair f i.gate i.operands ++ shownPair f .swap i.pair

/-- What a layer that is no loop shows, operation by operation; annotations show nothing. -/
def shown : Layer → List β
  | rotation rotations =>
    (rotations.entries.filter fun entry => !entry.2.isIdentity).flatMap fun entry =>
      f (.rotate entry.2) [] [.qubit entry.1]
  | interact interactions => interactions.flatMap fun i => shownPair f i.gate i.operands
  | swap pairs => pairs.flatMap (shownPair f .swap)
  | iswap pairs => pairs.flatMap (shownPair f .iswap)
  | interactSwap interactions => interactions.flatMap (shownInteractSwap f)
  | reset resets => resets.flatMap fun entry => f (.reset entry.2) [] [.qubit entry.1]
  | measure targets => targets.flatMap fun t =>
      f (.measure t.basis) (t.args.map Scalar.position) [.qubit t.qubit]
  | product products => products.flatMap fun p =>
      f .measureProduct (p.args.map Scalar.position) (factorTargets p.factors)
  | annotations instructions | feedback instructions | noise instructions =>
    instructions.flatMap (Instruction.shown f)
  | empty | coords _ | shift _ | loop _ _ => []

/-- Whether writing a layer may rearrange it. -/
def isRearranged : Layer → Bool
  | rotation _ | interact _ | swap _ | iswap _ | interactSwap _ => true
  | _ => false

theorem shown_of_isVacuous {l : Layer} (h : l.isVacuous = true) : shown f l = [] := by
  cases l with
  | rotation rotations =>
    have hnone : (rotations.entries.filter fun entry => !entry.2.isIdentity) = [] := by
      simpa [isVacuous, OrderedMap.values] using h
    rw [shown, hnone, List.flatMap_nil]
  | _ => simp_all [shown, isVacuous]

theorem Absorbed.isRearranged {l next joined : Layer} (h : Absorbed l next joined) :
    l.isRearranged = joined.isRearranged ∧ next.isRearranged = joined.isRearranged := by
  cases h <;> exact ⟨rfl, rfl⟩

theorem shown_of_absorbed {l next joined : Layer} (h : Absorbed l next joined)
    (hrearranged : joined.isRearranged = false) :
    shown f joined = shown f l ++ shown f next := by
  cases h <;> simp_all [shown, isRearranged]

/-- Two layers as one show what they show one after another, rearranged. -/
theorem shown_perm_of_absorbed {l next joined : Layer} (h : Absorbed l next joined)
    (hapart : ∀ q ∈ l.slots, q ∉ next.slots) :
    (shown f joined).Perm (shown f l ++ shown f next) := by
  cases h with
  | rotation a b =>
    have hentries := a.insertAll_perm b.nodup_keys fun e he hkey =>
      hapart e.1 hkey (List.mem_map.2 ⟨e, he, rfl⟩)
    have hmoving := (hentries.filter fun entry => !entry.2.isIdentity).flatMap_right
      fun entry => f (.rotate entry.2) [] [.qubit entry.1]
    rwa [List.filter_append, List.flatMap_append] at hmoving
  | _ => simp [shown]

/-! ## Groups -/

/-- What is shown group by group rearranges what the entries show. -/
theorem flatMap_grouped_perm {α : Type} {entries : List (String × α)}
    {write : String → List α → Instruction} {h : String × α → List β}
    (hwrite : ∀ group ∈ (grouped entries).entries,
      ((write group.1 group.2).shown f).Perm (group.2.flatMap fun v => h (group.1, v))) :
    (((grouped entries).entries.map fun group => write group.1 group.2).flatMap
      (Instruction.shown f)).Perm (entries.flatMap h) := by
  rw [List.flatMap_map]
  have hentries := (ungrouped_grouped_perm entries).flatMap_right h
  simp only [ungrouped, List.flatMap_assoc, List.flatMap_map] at hentries
  exact (List.Perm.flatMap_left _ hwrite).trans hentries

/-- What a named gate shows on a pair of qubits. -/
def shownNamed (entry : String × (Nat × Nat)) : List β :=
  Instruction.shown f
    { name := entry.1, targets := [.qubit entry.2.1, .qubit entry.2.2], args := [] }

variable {f}

theorem shownNamed_of_kind {g : Gate} (h : g.kind = .clifford2) (p : Nat × Nat) :
    shownNamed f (g.name, p) = shownPair f g p := by
  have hpair := Instruction.shown_of_isPairwise f (by rw [h]; rfl) [p] []
  simpa [shownNamed, shownPair] using hpair

theorem shown_pairInstruction_perm {g : Gate} (h : g.kind = .clifford2)
    (pairs : List (Nat × Nat)) :
    ((pairInstruction g.name pairs).shown f).Perm (pairs.flatMap (shownPair f g)) := by
  have hsorted := (List.mergeSort_perm pairs natPairLe).flatMap_right (shownPair f g)
  rw [pairInstruction, Instruction.shown_of_isPairwise f (by rw [h]; rfl)]
  exact hsorted

theorem shown_pairInstructions_perm {g : Gate} (h : g.kind = .clifford2)
    (pairs : List (Nat × Nat)) :
    ((pairInstructions g.name pairs).flatMap (Instruction.shown f)).Perm
      (pairs.flatMap (shownPair f g)) := by
  unfold pairInstructions
  split
  · next hempty =>
    rw [List.isEmpty_iff.1 hempty]
    exact .refl _
  · rw [List.flatMap_singleton]
    exact shown_pairInstruction_perm h pairs

theorem shown_groupedPairs_perm {entries : List (String × (Nat × Nat))}
    (hkind : ∀ entry ∈ entries, ∃ g : Gate, entry.1 = g.name ∧ g.kind = .clifford2) :
    ((groupedPairs entries).flatMap (Instruction.shown f)).Perm
      (entries.flatMap (shownNamed f)) := by
  rw [groupedPairs_eq]
  apply flatMap_grouped_perm
  intro group hgroup
  obtain ⟨entry, hentry, hname⟩ := name_of_mem_grouped hgroup
  obtain ⟨g, hg, hkind⟩ := hkind entry hentry
  simp only [hname, hg, shownNamed_of_kind hkind]
  exact shown_pairInstruction_perm hkind group.2

/-! ## Layers -/

theorem shown_interactionInstructions_perm (interactions : List Interaction) :
    ((interactionInstructions interactions).flatMap (Instruction.shown f)).Perm
      (shown f (interact interactions)) := by
  have hgrouped := @shown_groupedPairs_perm _ f
    (interactions.map fun i => (i.gate.name, i.operands)) (by
      intro entry hentry
      obtain ⟨i, -, rfl⟩ := List.mem_map.1 hentry
      exact ⟨i.gate, rfl, kind_interaction_gate i⟩)
  rw [List.flatMap_map] at hgrouped
  simp only [shownNamed_of_kind (kind_interaction_gate _)] at hgrouped
  exact hgrouped

theorem shownInteractSwap_of_some {i : Interaction} {g : Gate} (h : fusedSwap? i = some g) :
    shownInteractSwap f i = shownPair f g i.operands := by
  simp [shownInteractSwap, h]

theorem shownInteractSwap_of_isNone {i : Interaction} (h : (fusedSwap? i).isNone = true) :
    shownInteractSwap f i = shownPair f i.gate i.operands ++ shownPair f .swap i.pair := by
  simp [shownInteractSwap, Option.isNone_iff_eq_none.1 h]

theorem flatMap_fusedSwaps (interactions : List Interaction) :
    (interactions.filterMap fun i =>
        (fusedSwap? i).map fun g => (g.name, i.operands)).flatMap (shownNamed f) =
      (interactions.filter fun i => (fusedSwap? i).isSome).flatMap (shownInteractSwap f) := by
  induction interactions with
  | nil => rfl
  | cons i interactions ih =>
    cases hfused : fusedSwap? i with
    | none => simpa [hfused] using ih
    | some g =>
      simp only [hfused, List.filterMap_cons, Option.map_some, List.filter_cons, Option.isSome_some,
        if_true, List.flatMap_cons, ih, shownNamed_of_kind (kind_fusedSwap? hfused),
        shownInteractSwap_of_some hfused]

theorem shown_fusedSwaps_perm (interactions : List Interaction) :
    ((groupedPairs (interactions.filterMap fun i =>
      (fusedSwap? i).map fun g => (g.name, i.operands))).flatMap (Instruction.shown f)).Perm
      ((interactions.filter fun i => (fusedSwap? i).isSome).flatMap (shownInteractSwap f)) := by
  rw [← flatMap_fusedSwaps]
  apply shown_groupedPairs_perm
  intro entry hentry
  obtain ⟨i, -, hi⟩ := List.mem_filterMap.1 hentry
  obtain ⟨g, hg, rfl⟩ := Option.map_eq_some_iff.1 hi
  exact ⟨g, rfl, kind_fusedSwap? hg⟩

theorem shown_apartSwaps_perm (htick : Instruction.tick.shown f = [])
    {apart : List Interaction} (hapart : ∀ i ∈ apart, (fusedSwap? i).isNone = true) :
    ((interactionInstructions apart ++ [Instruction.tick] ++
      pairInstructions Gate.swap.name (apart.map Interaction.pair)).flatMap
        (Instruction.shown f)).Perm (apart.flatMap (shownInteractSwap f)) := by
  have hswaps := @shown_pairInstructions_perm _ f .swap rfl (apart.map Interaction.pair)
  rw [List.flatMap_map] at hswaps
  rw [List.flatMap_append, List.flatMap_append, List.flatMap_singleton, htick, List.append_nil]
  refine ((shown_interactionInstructions_perm apart).append hswaps).trans ?_
  refine (List.flatMap_append_perm apart _ _).trans (.of_eq ?_)
  exact List.flatMap_congr fun i hi => (shownInteractSwap_of_isNone (hapart i hi)).symm

theorem shown_interactSwapInstructions_perm (htick : Instruction.tick.shown f = [])
    (interactions : List Interaction) :
    ((interactSwapInstructions interactions).flatMap (Instruction.shown f)).Perm
      (shown f (interactSwap interactions)) := by
  have hsplit := (List.filter_append_perm (fun i => (fusedSwap? i).isSome)
    interactions).flatMap_right (shownInteractSwap f)
  rw [List.flatMap_append] at hsplit
  rw [interactSwapInstructions, List.flatMap_append]
  refine ((shown_fusedSwaps_perm interactions).append ?_).trans hsplit
  simp only [Option.not_isSome]
  split
  · next hempty =>
    rw [List.isEmpty_iff.1 hempty]
    exact .refl _
  · apply shown_apartSwaps_perm htick
    intro i hi
    exact (List.mem_filter.1 hi).2

theorem shown_rotations (r : Rotation) (qubits : List Nat) :
    Instruction.shown f { name := r.name, targets := qubits.map .qubit, args := [] } =
      qubits.flatMap fun q => f (.rotate r) [] [.qubit q] := by
  have hgate : Instruction.gate? { name := r.name, targets := qubits.map .qubit, args := [] } =
      some (.rotate r) := Instruction.gate?_of_name rfl
  rw [Instruction.shown_of_isSingle f hgate rfl, List.flatMap_map]
  rfl

/-- What a named gate shows on a qubit. -/
def shownTurn (f : Gate → List Int → List Target → List β) (entry : String × Nat) : List β :=
  Instruction.shown f { name := entry.1, targets := [.qubit entry.2], args := [] }

theorem shownTurn_name (r : Rotation) (q : Nat) :
    shownTurn f (r.name, q) = f (.rotate r) [] [.qubit q] := by
  have hone := @shown_rotations _ f r [q]
  rwa [List.flatMap_singleton] at hone

theorem shown_rotationInstructions_perm (rotations : OrderedMap Nat Rotation) :
    ((rotationInstructions rotations).flatMap (Instruction.shown f)).Perm
      (shown f (rotation rotations)) := by
  have hmoving : (movingRotations rotations).flatMap (shownTurn f) =
      shown f (rotation rotations) := by
    rw [movingRotations, List.flatMap_map, shown]
    simp only [shownTurn_name]
  rw [← hmoving, rotationInstructions_eq]
  apply @flatMap_grouped_perm _ f _ _
    (fun name qubits => { name, targets := qubits.map .qubit, args := [] })
  intro group hgroup
  obtain ⟨entry, hentry, hname⟩ := name_of_mem_grouped hgroup
  obtain ⟨e, -, rfl⟩ := List.mem_map.1 hentry
  simp only [hname, shown_rotations, shownTurn_name]
  exact .refl _

/-- The instructions that write a layer show what the layer shows, rearranged. -/
theorem shown_instructions_perm (htick : Instruction.tick.shown f = []) {l : Layer}
    (h : l.isRearranged = true) :
    (l.instructions.flatMap (Instruction.shown f)).Perm (shown f l) := by
  cases l with
  | rotation rotations => exact shown_rotationInstructions_perm rotations
  | interact interactions => exact shown_interactionInstructions_perm interactions
  | swap pairs => exact @shown_pairInstructions_perm _ f .swap rfl pairs
  | iswap pairs => exact @shown_pairInstructions_perm _ f .iswap rfl pairs
  | interactSwap interactions => exact shown_interactSwapInstructions_perm htick interactions
  | _ => simp [isRearranged] at h

theorem shown_onQubit {g : Gate} (h : g.kind.isSingle = true) (q : Nat) (args : List Scalar) :
    (Instruction.onQubits g [q] args).shown f = f g (args.map Scalar.position) [.qubit q] := by
  have hgate : (Instruction.onQubits g [q] args).gate? = some g := Instruction.gate?_of_name rfl
  rw [Instruction.shown_of_isSingle f hgate h]
  exact List.flatMap_singleton _ _

theorem shown_productInstruction {p : MeasuredProduct} (hp : p.factors ≠ []) :
    (productInstruction p).shown f =
      f .measureProduct (p.args.map Scalar.position) (factorTargets p.factors) := by
  have hgate : (productInstruction p).gate? = some .measureProduct := Instruction.gate?_of_name rfl
  have hgroups : (productInstruction p).targetGroups = [factorTargets p.factors] := by
    rw [Instruction.targetGroups_of_isProduct (by rw [Instruction.kind_of_gate? hgate]; rfl)]
    apply Target.productGroups_joinProduct (by simpa [factorTargets] using hp)
    intro t ht
    obtain ⟨factor, -, rfl⟩ := List.mem_map.1 ht
    rfl
  rw [Instruction.shown_of_gate? f hgate, hgroups, List.flatMap_singleton]
  rfl

/-- A layer that is not rearranged is written with instructions that show the same. -/
theorem shown_instructions {p : Instruction → Prop}
    (hmetadata : ∀ i : Instruction, i.kind = .metadata → i.shown f = []) {l : Layer}
    (hl : Carries p l) (h : l.isRearranged = false) :
    l.instructions.flatMap (Instruction.shown f) = shown f l := by
  have hannotation : ∀ {g : Gate} {i : Instruction}, i.name = g.name →
      g.kind = .metadata → i.shown f = [] := by
    intro g i hname hkind
    apply hmetadata
    rwa [Instruction.kind_of_gate? (Instruction.gate?_of_name hname)]
  cases l with
  | reset resets =>
    rw [instructions, List.flatMap_map]
    exact List.flatMap_congr fun entry _ => shown_onQubit (g := .reset entry.2) rfl entry.1 []
  | measure targets =>
    rw [instructions, List.flatMap_map]
    exact List.flatMap_congr fun t _ => shown_onQubit (g := .measure t.basis) rfl t.qubit t.args
  | product products =>
    rw [instructions, List.flatMap_map]
    exact List.flatMap_congr fun x hx => shown_productInstruction (hl x hx)
  | coords positions =>
    rw [instructions, List.flatMap_map]
    exact List.flatMap_eq_nil_iff.2 fun entry _ => hannotation (g := .qubitCoords) rfl rfl
  | shift offset =>
    rw [instructions, List.flatMap_singleton]
    exact hannotation (g := .shiftCoords) rfl rfl
  | annotations _ | feedback _ | noise _ => rfl
  | empty | loop _ _ => rfl
  | _ => simp [isRearranged] at h

end Layer

end StabCircuit
