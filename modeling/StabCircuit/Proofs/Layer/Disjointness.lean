import StabCircuit.Proofs.Layer.Soundness

/-!
# Disjoint layers

A disjoint layer touches no qubit twice.  Layers that pass the check are disjoint
at every depth, and neither local optimization nor the change to the Z basis
brings about or destroys disjointness.
-/

namespace StabCircuit

/-- No pair of a two-qubit gate and no measured product of an instruction repeats a qubit. -/
def Instruction.PiecesApart (i : Instruction) : Prop :=
  i.kind = .clifford2 ∨ i.kind = .measureProduct →
    ∀ group ∈ i.targetGroups, (group.filterMap Target.qubit?).Nodup

instance : DecidablePred Instruction.PiecesApart := fun _ =>
  inferInstanceAs (Decidable (_ → _))

/-- The measurements with reset of an instruction name no qubit twice. -/
def Instruction.ResetsApart (i : Instruction) : Prop := i.kind = .measureReset → i.qubits.Nodup

instance : DecidablePred Instruction.ResetsApart := fun _ =>
  inferInstanceAs (Decidable (_ → _))

namespace Layer

/-- Whether the qubits of a layer are examined. -/
def isExamined : Layer → Bool
  | feedback _ | noise _ | loop _ _ => false
  | _ => true

theorem isDisjoint_iff {l : Layer} :
    l.isDisjoint = true ↔ (l.isExamined = true → l.slots.Nodup) := by
  have hslots : (l.slots.length == l.touched.size) = true ↔ l.slots.Nodup := by
    rw [beq_iff_eq, touched, OrderedSet.size_ofList_eq_iff]
  cases l <;> simp [isDisjoint, isExamined, hslots]

theorem nodup_of_isDisjoint {l : Layer} (h : l.isDisjoint = true) (hl : l.isExamined = true) :
    l.slots.Nodup :=
  isDisjoint_iff.1 h hl

theorem isDisjoint_congr {l other : Layer} (hexamined : l.isExamined = other.isExamined)
    (hslots : l.slots.Perm other.slots) : l.isDisjoint = true ↔ other.isDisjoint = true := by
  rw [isDisjoint_iff, isDisjoint_iff, hexamined, hslots.nodup_iff]

theorem Absorbed.slots_perm {l next joined : Layer} (h : Absorbed l next joined)
    (hapart : ∀ q ∈ l.slots, q ∉ next.slots) : joined.slots.Perm (l.slots ++ next.slots) := by
  cases h with
  | rotation a b =>
    have hperm := a.insertAll_perm b.nodup_keys fun e he hkey =>
      hapart e.1 hkey (List.mem_map.2 ⟨e, he, rfl⟩)
    simpa [slots, OrderedMap.keys] using hperm.map Prod.fst
  | _ => simp [slots]

theorem Absorbed.isExamined {l next joined : Layer} (h : Absorbed l next joined) :
    l.isExamined = joined.isExamined ∧ next.isExamined = joined.isExamined := by
  cases h <;> exact ⟨rfl, rfl⟩

theorem isDisjoint_absorb {l next joined : Layer} (h : l.absorb? next = some joined) :
    joined.isDisjoint = true ↔ l.isDisjoint = true ∧ next.isDisjoint = true := by
  obtain ⟨habsorbed, hapart⟩ := absorbed_of_absorb? h
  obtain ⟨hl, hnext⟩ := habsorbed.isExamined
  simp only [isDisjoint_iff, hl, hnext, (habsorbed.slots_perm hapart).nodup_iff, ← imp_and]
  refine imp_congr_right fun _ => ?_
  rw [List.nodup_append]
  constructor
  · exact fun h => ⟨h.1, h.2.1⟩
  · exact fun h => ⟨h.1, h.2, fun q hq q' hq' heq => hapart q hq (heq ▸ hq')⟩

theorem sortedPair_perm (a b : Nat) : [(sortedPair a b).1, (sortedPair a b).2].Perm [a, b] := by
  rcases Nat.le_total a b with h | h
  · simp [sortedPair, h]
  · simpa [sortedPair, h] using List.Perm.swap a b []

theorem make_perm (a b : Nat) (P Q : Basis) :
    [(Interaction.make a P b Q).a, (Interaction.make a P b Q).b].Perm [a, b] := by
  unfold Interaction.make
  split
  · exact .refl _
  · exact List.Perm.swap a b []

theorem operands_perm (i : Interaction) : [i.operands.1, i.operands.2].Perm [i.a, i.b] := by
  unfold Interaction.operands
  split
  · exact List.Perm.swap i.a i.b []
  · exact List.Perm.swap i.a i.b []
  · split
    · exact sortedPair_perm i.a i.b
    · exact .refl _

theorem samePairs_perm {interactions : List Interaction} {swaps : List (Nat × Nat)}
    (h : samePairs interactions swaps = true) :
    (interactions.map Interaction.pair).Perm (swaps.map fun p => sortedPair p.1 p.2) := by
  simp only [samePairs, Bool.and_eq_true, beq_iff_eq] at h
  have hsorted := List.mergeSort_perm (interactions.map Interaction.pair) natPairLe
  rw [h.1] at hsorted
  exact hsorted.symm.trans (List.mergeSort_perm _ _)

theorem slots_perm_of_samePairs {interactions : List Interaction} {swaps : List (Nat × Nat)}
    (h : samePairs interactions swaps = true) :
    (interact interactions).slots.Perm (swap swaps).slots := by
  have hpairs := (samePairs_perm h).flatMap_right fun p => [p.1, p.2]
  rw [List.flatMap_map, List.flatMap_map] at hpairs
  have hleft : (interact interactions).slots.Perm
      (interactions.flatMap fun i => [i.pair.1, i.pair.2]) :=
    .flatMap_left _ fun i _ => (sortedPair_perm i.a i.b).symm
  have hright : (swaps.flatMap fun p => [(sortedPair p.1 p.2).1, (sortedPair p.1 p.2).2]).Perm
      (swap swaps).slots := .flatMap_left _ fun p _ => sortedPair_perm p.1 p.2
  exact hleft.trans (hpairs.trans hright)

theorem isDisjoint_of_samePairs {interactions : List Interaction} {swaps : List (Nat × Nat)}
    (h : samePairs interactions swaps = true) :
    (interact interactions).isDisjoint = true ↔ (swap swaps).isDisjoint = true :=
  isDisjoint_congr rfl (slots_perm_of_samePairs h)

/-- Interactions whose qubits are rearranged within each interaction use the same qubits. -/
theorem slots_perm_of_map {interactions : List Interaction} {f : Interaction → Interaction}
    (hf : ∀ i, [(f i).a, (f i).b].Perm [i.a, i.b]) :
    (interact (interactions.map f)).slots.Perm (interact interactions).slots := by
  simp only [slots, List.flatMap_map]
  exact .flatMap_left _ fun i _ => hf i

theorem exchangeQubits_perm (i : Interaction) :
    [i.exchangeQubits.a, i.exchangeQubits.b].Perm [i.a, i.b] :=
  (make_perm _ _ _ _).trans (List.Perm.swap i.a i.b [])

theorem stable_isDisjoint : Stable fun l => l.isDisjoint = true where
  vacuous l hl hvacuous := by
    rw [isDisjoint_iff]
    intro _
    cases l with
    | rotation rotations => exact rotations.nodup_keys
    | loop count body => simp [isLoop] at hl
    | _ => simp_all [isVacuous, slots, isExamined]
  absorb l next joined h := isDisjoint_absorb h
  rotation rotations := isDisjoint_iff.2 fun _ => rotations.nodup_keys
  shift offset := isDisjoint_iff.2 fun _ => by simp [slots]
  interactSwap interactions swaps h := by
    have hinteract : (interactSwap interactions).isDisjoint = true ↔
        (interact interactions).isDisjoint = true := isDisjoint_congr rfl (.refl _)
    rw [hinteract, ← isDisjoint_of_samePairs h, and_self_iff]
  swapInteract interactions swaps h := by
    have hexchanged : (interactSwap (interactions.map Interaction.exchangeQubits)).isDisjoint =
        true ↔ (interact interactions).isDisjoint = true :=
      isDisjoint_congr rfl (slots_perm_of_map exchangeQubits_perm)
    rw [hexchanged, ← isDisjoint_of_samePairs h, and_self_iff]

/-! ## Layers of an instruction -/

theorem factorsOf_sublist (group : List Target) :
    ((LayerCircuit.factorsOf group).map Prod.fst).Sublist (group.filterMap Target.qubit?) := by
  induction group with
  | nil => exact .slnil
  | cons t group ih =>
    cases t with
    | qubit q => simpa [LayerCircuit.factorsOf, Target.qubit?] using ih.cons q
    | pauli b q => simpa [LayerCircuit.factorsOf, Target.qubit?] using ih
    | record _ | sweep _ | combiner => exact ih

theorem map_factorsOf {group : List Target} (h : ∀ t ∈ group, t.isPauli = true) :
    (LayerCircuit.factorsOf group).map Prod.fst = group.filterMap Target.qubit? := by
  induction group with
  | nil => rfl
  | cons t group ih =>
    rw [List.forall_mem_cons] at h
    cases t with
    | pauli b q => simpa [LayerCircuit.factorsOf, Target.qubit?] using ih h.2
    | _ => simp [Target.isPauli] at h

theorem slots_perm_of_yieldsPair {g : Gate} {a b : Nat} {l : Layer}
    (h : LayerCircuit.YieldsPair g a b l) : l.isExamined = true ∧ l.slots.Perm [a, b] := by
  cases h with
  | swap => exact ⟨rfl, by simpa [slots] using sortedPair_perm a b⟩
  | iswap => exact ⟨rfl, by simpa [slots] using sortedPair_perm a b⟩
  | czSwap => exact ⟨rfl, by simpa [slots] using make_perm a b .z .z⟩
  | controlledSwap => exact ⟨rfl, by simpa [slots] using make_perm a b .z .x⟩
  | swapControlled =>
    exact ⟨rfl, by simpa [slots] using (make_perm b a .z .x).trans (List.Perm.swap a b [])⟩
  | controlled P Q => exact ⟨rfl, by simpa [slots] using make_perm a b P Q⟩

/-- The layer of a pair is disjoint exactly when the pair repeats no qubit. -/
theorem isDisjoint_yieldsTargets_iff {g : Gate} {group : List Target} {l : Layer}
    (h : LayerCircuit.YieldsTargets g group l) :
    l.isDisjoint = true ↔ (group.filterMap Target.qubit?).Nodup := by
  obtain ⟨hs, ht, hpair⟩ := h
  obtain ⟨hexamined, hslots⟩ := slots_perm_of_yieldsPair hpair
  rw [isDisjoint_iff, hslots.nodup_iff]
  simp [hexamined, hs, ht]

/-- A checked instruction without classical control yields disjoint layers exactly when its pieces
repeat no qubit. -/
theorem isDisjoint_yields_iff {i : Instruction} {more : List Layer} (hi : i.IsChecked)
    (h : LayerCircuit.Yields i more) :
    (∀ l ∈ more, l.isDisjoint = true) ↔ (i.isClassicallyControlled = false → i.PiecesApart) := by
  have hmap : ∀ {α : Type} (f : α → Layer) (xs : List α), (∀ x ∈ xs, (f x).slots.Nodup) →
      ∀ l ∈ xs.map f, l.isDisjoint = true := by
    intro α f xs hf l hl
    obtain ⟨x, hx, rfl⟩ := List.mem_map.1 hl
    exact isDisjoint_iff.2 fun _ => hf x hx
  -- Only two-qubit gates and products have pieces of more than one qubit.
  have hsingle : ∀ {g : Gate} {more : List Layer}, i.gate? = some g → g.kind ≠ .clifford2 →
      g.kind ≠ .measureProduct → (∀ l ∈ more, l.isDisjoint = true) →
      ((∀ l ∈ more, l.isDisjoint = true) ↔
        (i.isClassicallyControlled = false → i.PiecesApart)) := by
    intro g more hg hpair hproduct hmore
    refine iff_of_true hmore fun _ hkind => ?_
    rw [Instruction.kind_of_gate? hg] at hkind
    exact absurd hkind (not_or.2 ⟨hpair, hproduct⟩)
  cases h with
  | feedback h => simp [isDisjoint, h]
  | tick hg =>
    exact hsingle hg (by decide) (by decide)
      (List.forall_mem_singleton.2 (isDisjoint_iff.2 fun _ => by simp [slots]))
  | coords hg => exact hsingle hg (by decide) (by decide) (hmap _ _ fun _ _ => by simp [slots])
  | shift hg =>
    exact hsingle hg (by decide) (by decide)
      (List.forall_mem_singleton.2 (isDisjoint_iff.2 fun _ => by simp [slots]))
  | annotated hg =>
    have hannotations : ∀ l ∈ [annotations [i]], l.isDisjoint = true :=
      List.forall_mem_singleton.2 (isDisjoint_iff.2 fun _ => by simp [slots])
    rcases hg with hg | hg
    · exact hsingle hg (by decide) (by decide) hannotations
    · exact hsingle hg (by decide) (by decide) hannotations
  | rotation r hg =>
    exact hsingle hg (by simp [Gate.kind]) (by simp [Gate.kind])
      (hmap _ _ fun _ _ => OrderedMap.nodup_keys _)
  | reset b hg =>
    exact hsingle hg (by simp [Gate.kind]) (by simp [Gate.kind])
      (hmap _ _ fun _ _ => by simp [slots])
  | measure b hg =>
    exact hsingle hg (by simp [Gate.kind]) (by simp [Gate.kind])
      (hmap _ _ fun _ _ => by simp [slots])
  | measureReset b hg =>
    exact hsingle hg (by simp [Gate.kind]) (by simp [Gate.kind])
      (List.forall_mem_append.2
        ⟨hmap _ _ fun _ _ => by simp [slots], hmap _ _ fun _ _ => by simp [slots]⟩)
  | product hg hplain =>
    have hkind : i.kind = .measureProduct := Instruction.kind_of_gate? hg
    have hslots : ∀ group ∈ Target.productGroups i.targets,
        ((product [⟨LayerCircuit.factorsOf group, i.args⟩]).isDisjoint = true ↔
          (group.filterMap Target.qubit?).Nodup) := by
      intro group hgroup
      rw [isDisjoint_iff, ← map_factorsOf (isPauli_of_mem_productGroups hi hg hgroup)]
      simp [isExamined, slots]
    simpa [Instruction.PiecesApart, Instruction.targetGroups, hkind, hplain] using
      forall₂_congr hslots
  | noise g hg hkind =>
    refine hsingle hg ?_ ?_ (by simp [isDisjoint])
    · intro h
      simp [h, GateKind.isNoise] at hkind
    · intro h
      simp [h, GateKind.isNoise] at hkind
  | pairs g _ hg hkind hplain hmore =>
    have hkind' : i.kind = .clifford2 := (Instruction.kind_of_gate? hg).trans hkind
    simp only [Instruction.PiecesApart, Instruction.targetGroups, hkind', hplain, true_or,
      true_imp_iff]
    generalize Target.pairs i.targets = groups at hmore
    induction hmore with
    | nil => simp
    | cons hl _ ih =>
      rw [List.forall_mem_cons, List.forall_mem_cons]
      exact and_congr (isDisjoint_yieldsTargets_iff hl) ih

/-! ## Change to the Z basis and the check -/

theorem isDisjoint_rotationsToZ (entries : List (Nat × Basis)) :
    (rotationsToZ entries).isDisjoint = true :=
  stable_isDisjoint.rotation _

theorem stableToZ_isDisjoint : StableToZ fun l => l.isDisjoint = true := by
  have hbracket : ∀ (l : Layer) (before after : List (Nat × Basis)),
      (∀ j ∈ [rotationsToZ before, l, rotationsToZ after], j.isDisjoint = true) ↔
        l.isDisjoint = true := by
    intro l before after
    simp [isDisjoint_rotationsToZ]
  intro l hl
  cases l with
  | loop count body => simp [isLoop] at hl
  | interact interactions =>
    rw [LayerCircuit.layerToZ]
    split
    · simp
    · rw [hbracket]
      exact isDisjoint_congr rfl (slots_perm_of_map fun i => make_perm _ _ _ _)
  | interactSwap interactions =>
    rw [LayerCircuit.layerToZ]
    split
    · simp
    · rw [hbracket]
      exact isDisjoint_congr rfl (@slots_perm_of_map interactions _ fun i => make_perm _ _ _ _)
  | reset resets =>
    rw [LayerCircuit.layerToZ]
    split
    · simp
    · have hreset : (reset (resets.map fun entry => (entry.1, .z))).isDisjoint = true ↔
          (reset resets).isDisjoint = true :=
        isDisjoint_congr rfl (by simp [slots, Function.comp_def])
      simpa [isDisjoint_rotationsToZ] using hreset
  | measure targets =>
    rw [LayerCircuit.layerToZ]
    split
    · simp
    · rw [hbracket]
      exact isDisjoint_congr rfl (by simp [slots, Function.comp_def])
  | product products =>
    rw [LayerCircuit.layerToZ]
    split
    · simp
    · rw [hbracket]
      exact isDisjoint_congr rfl (by simp [slots, Function.comp_def, List.flatMap_map])
  | _ => simp [LayerCircuit.layerToZ]

theorem checkLayer_of_isLoop_eq_false {l : Layer} (h : l.isLoop = false) :
    LayerCircuit.checkLayer l = if l.isDisjoint then .ok ()
      else .error (.overlappingLayer l.kindName l.touched.toList) := by
  cases l with
  | loop count body => simp [isLoop] at h
  | _ => rfl

theorem checkLayer_eq_ok_of_isLoop_eq_false {l : Layer} (h : l.isLoop = false) :
    LayerCircuit.checkLayer l = .ok () ↔ l.isDisjoint = true := by
  rw [checkLayer_of_isLoop_eq_false h]
  split <;> simp_all

theorem checkDisjoint_iff {ls : List Layer} :
    LayerCircuit.checkDisjoint ls = .ok () ↔ ∀ l ∈ ls, LayerCircuit.checkLayer l = .ok () := by
  induction ls with
  | nil => simp [LayerCircuit.checkDisjoint]
  | cons l rest ih =>
    rw [LayerCircuit.checkDisjoint, List.forall_mem_cons, ← ih]
    cases LayerCircuit.checkLayer l with
    | ok _ => simp
    | error e => simp

/-- Layers that pass the check are disjoint at every depth. -/
theorem allHold_isDisjoint_of_checkDisjoint {ls : List Layer}
    (h : LayerCircuit.checkDisjoint ls = .ok ()) :
    AllHold (fun l => l.isDisjoint = true) ls := by
  have hlayer : ∀ l : Layer, LayerCircuit.checkLayer l = .ok () →
      Holds (fun l => l.isDisjoint = true) l := by
    intro l hl
    induction l using loopInduction with
    | plain l hplain =>
      exact (holds_of_isLoop_eq_false hplain).2 ((checkLayer_eq_ok_of_isLoop_eq_false hplain).1 hl)
    | loop count body ih =>
      intro _
      rw [LayerCircuit.checkLayer, checkDisjoint_iff] at hl
      exact allHold_iff.2 fun l hmem => ih l hmem (hl l hmem)
  exact allHold_iff.2 fun l hl => hlayer l (checkDisjoint_iff.1 h l hl)

end Layer

end StabCircuit
