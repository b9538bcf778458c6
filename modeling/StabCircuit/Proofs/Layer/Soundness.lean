import StabCircuit.Proofs.Circuit.Pieces
import StabCircuit.Proofs.Layer.Properties
import StabCircuit.Proofs.Support.OrderedMaps

/-!
# Sound layers

A sound layer carries checked instructions that measure qubits only, and products
with factors, so that it is written with such instructions.  Sound instructions
yield sound layers, and neither local optimization nor the change to the Z basis
brings about or destroys soundness.
-/

namespace StabCircuit

/-- Whether layers carry the instruction as it is. -/
def Instruction.isCarried (i : Instruction) : Bool :=
  i.isClassicallyControlled || i.kind.isMetadata || i.kind.isNoise

/-! ## Gates grouped by name -/

namespace Layer

/-- Values grouped by name, the names ascending. -/
def grouped {α : Type} (entries : List (String × α)) : OrderedMap String (List α) :=
  entries.foldl (fun groups entry => addToGroup groups entry.1 entry.2) OrderedMap.empty

/-- The entries of groups, group by group. -/
def ungrouped {α : Type} (groups : OrderedMap String (List α)) : List (String × α) :=
  groups.entries.flatMap fun group => group.2.map (Prod.mk group.1)

theorem ungrouped_addToGroup_perm {α : Type} (groups : OrderedMap String (List α))
    (entry : String × α) :
    (ungrouped (addToGroup groups entry.1 entry.2)).Perm (ungrouped groups ++ [entry]) := by
  obtain ⟨rest, hold, hnew⟩ := groups.alter_perm entry.1
    fun old => some (old.getD [] ++ [entry.2])
  have hold' := hold.flatMap_right fun group => group.2.map (Prod.mk group.1)
  have hnew' := hnew.flatMap_right fun group => group.2.map (Prod.mk group.1)
  refine hnew'.trans (List.Perm.trans ?_ (hold'.append_right [entry]).symm)
  cases groups.get? entry.1 with
  | none => simpa using (List.perm_append_singleton entry _).symm
  | some values =>
    simp only [Option.toList_some, List.map_cons, List.map_nil, List.cons_append,
      List.nil_append, List.flatMap_cons, Option.getD_some, List.map_append, List.append_assoc]
    exact (List.perm_append_singleton entry _).symm.append_left _

theorem ungrouped_foldl_perm {α : Type} (entries : List (String × α))
    (groups : OrderedMap String (List α)) :
    (ungrouped (entries.foldl (fun groups entry => addToGroup groups entry.1 entry.2)
      groups)).Perm (ungrouped groups ++ entries) := by
  induction entries generalizing groups with
  | nil => simp
  | cons entry entries ih =>
    have hstep := ungrouped_addToGroup_perm groups entry
    refine (ih _).trans ?_
    simpa using hstep.append_right entries

/-- Grouping rearranges entries. -/
theorem ungrouped_grouped_perm {α : Type} (entries : List (String × α)) :
    (ungrouped (grouped entries)).Perm entries :=
  ungrouped_foldl_perm entries OrderedMap.empty

theorem mem_foldl_addToGroup {α : Type} {entries : List (String × α)}
    {groups : OrderedMap String (List α)} {group : String × List α}
    (h : group ∈ (entries.foldl (fun groups entry => addToGroup groups entry.1 entry.2)
      groups).entries) :
    group.1 ∈ groups.keys ∨ group.1 ∈ entries.map Prod.fst := by
  induction entries generalizing groups with
  | nil => exact .inl (List.mem_map.2 ⟨group, h, rfl⟩)
  | cons entry entries ih =>
    rcases ih h with hkey | hkey
    · obtain ⟨e, he, hkey⟩ := List.mem_map.1 hkey
      rcases OrderedMap.key_of_mem_alterEntries he with hname | ⟨e', he', hname⟩
      · exact .inr (by simp [← hkey, hname])
      · exact .inl (List.mem_map.2 ⟨e', he', by rw [← hkey, hname]⟩)
    · exact .inr (List.mem_cons_of_mem _ hkey)

/-- Groups have the names of entries. -/
theorem name_of_mem_grouped {α : Type} {entries : List (String × α)} {group : String × List α}
    (h : group ∈ (grouped entries).entries) : ∃ entry ∈ entries, group.1 = entry.1 := by
  rcases mem_foldl_addToGroup h with hkey | hkey
  · simp [OrderedMap.keys, OrderedMap.empty] at hkey
  · obtain ⟨entry, hentry, hname⟩ := List.mem_map.1 hkey
    exact ⟨entry, hentry, hname.symm⟩

theorem groupedPairs_eq (entries : List (String × (Nat × Nat))) :
    groupedPairs entries =
      (grouped entries).entries.map fun group => pairInstruction group.1 group.2 := rfl

/-- The rotations of a layer that are written, under their names. -/
def movingRotations (rotations : OrderedMap Nat Rotation) : List (String × Nat) :=
  (rotations.entries.filter fun entry => !entry.2.isIdentity).map fun entry =>
    (entry.2.name, entry.1)

theorem rotationInstructions_eq (rotations : OrderedMap Nat Rotation) :
    rotationInstructions rotations = (grouped (movingRotations rotations)).entries.map
      fun group => { name := group.1, targets := group.2.map .qubit, args := [] } := by
  rw [grouped, movingRotations, List.foldl_map]
  rfl

/-! ## Carried instructions -/

/-- Carried instructions have a property and products have factors. -/
def Carries (p : Instruction → Prop) : Layer → Prop
  | annotations instructions | feedback instructions | noise instructions =>
    ∀ i ∈ instructions, p i
  | product products => ∀ x ∈ products, x.factors ≠ []
  | _ => True

theorem Carries.mono {p q : Instruction → Prop} {l : Layer} (h : Carries p l)
    (hpq : ∀ i, p i → q i) : Carries q l := by
  cases l with
  | annotations _ | feedback _ | noise _ => exact fun i hi => hpq i (h i hi)
  | product _ => exact h
  | _ => trivial

theorem stable_carries (p : Instruction → Prop) : Stable (Carries p) where
  vacuous l hl hvacuous := by
    cases l <;> simp_all [Carries, isVacuous]
  absorb l next joined h := by
    cases (absorbed_of_absorb? h).1 <;> simp [Carries, or_imp, forall_and]
  rotation _ := trivial
  shift _ := trivial
  interactSwap _ _ _ := by simp [Carries]
  swapInteract _ _ _ := by simp [Carries]

theorem stableToZ_carries (p : Instruction → Prop) : StableToZ (Carries p) := by
  intro l hl
  cases l with
  | loop count body => simp [isLoop] at hl
  | interact _ | interactSwap _ | reset _ | measure _ | product _ =>
    rw [LayerCircuit.layerToZ]
    split <;> simp [Carries, rotationsToZ]
  | _ => simp [LayerCircuit.layerToZ]

/-- The products that a checked instruction measures consist of Paulis. -/
theorem isPauli_of_mem_productGroups {i : Instruction} (hi : i.IsChecked)
    (hg : i.gate? = some .measureProduct) {group : List Target}
    (hgroup : group ∈ Target.productGroups i.targets) : ∀ t ∈ group, t.isPauli = true := by
  obtain ⟨g, -, hg', -, hfault⟩ := hi.exists_gate
  obtain rfl : g = .measureProduct := Option.some.inj (hg'.symm.trans hg)
  obtain ⟨-, -, hall⟩ := (Instruction.targetFault?_product_iff (.inl rfl)).1 hfault
  intro t ht
  obtain ⟨hmem, hcombiner⟩ := (Target.mem_productGroups hgroup).2 t ht
  exact (hall t hmem).resolve_right (by simp [hcombiner])

theorem factorsOf_ne_nil {i : Instruction} (hi : i.IsChecked)
    (hg : i.gate? = some .measureProduct) {group : List Target}
    (hgroup : group ∈ Target.productGroups i.targets) : LayerCircuit.factorsOf group ≠ [] := by
  obtain ⟨t, rest, rfl⟩ := List.exists_cons_of_ne_nil (Target.mem_productGroups hgroup).1
  have hpauli := isPauli_of_mem_productGroups hi hg hgroup t (by simp)
  cases t <;> simp [Target.isPauli] at hpauli
  simp [LayerCircuit.factorsOf]

/-- A checked instruction yields layers that carry it only where it is carried as it is. -/
theorem carries_of_yields {p : Instruction → Prop} {i : Instruction} {more : List Layer}
    (hi : i.IsChecked) (hp : i.isCarried = true → p i) (h : LayerCircuit.Yields i more) :
    ∀ l ∈ more, Carries p l := by
  have hmap : ∀ {α : Type} (f : α → Layer) (xs : List α), (∀ x ∈ xs, Carries p (f x)) →
      ∀ l ∈ xs.map f, Carries p l := by
    intro α f xs hf l hl
    obtain ⟨x, hx, rfl⟩ := List.mem_map.1 hl
    exact hf x hx
  cases h with
  | feedback h => simpa [Carries] using hp (by simp [Instruction.isCarried, h])
  | tick => simp [Carries]
  | coords => exact hmap _ _ fun _ _ => trivial
  | shift => simp [Carries]
  | annotated hg =>
    have hkind : i.kind.isMetadata = true := by
      rcases hg with hg | hg <;> rw [Instruction.kind_of_gate? hg] <;> rfl
    simpa [Carries] using hp (by simp [Instruction.isCarried, hkind])
  | rotation => exact hmap _ _ fun _ _ => trivial
  | reset => exact hmap _ _ fun _ _ => trivial
  | measure => exact hmap _ _ fun _ _ => trivial
  | measureReset b =>
    exact List.forall_mem_append.2 ⟨hmap _ _ fun _ _ => trivial, hmap _ _ fun _ _ => trivial⟩
  | product hg =>
    refine hmap _ _ fun group hgroup => ?_
    simpa [Carries] using factorsOf_ne_nil hi hg hgroup
  | noise g hg hkind =>
    rw [← Instruction.kind_of_gate? hg] at hkind
    simpa [Carries] using hp (by simp [Instruction.isCarried, hkind])
  | pairs g _ _ _ _ hmore =>
    generalize Target.pairs i.targets = groups at hmore
    induction hmore with
    | nil => simp
    | cons hl _ ih =>
      refine List.forall_mem_cons.2 ⟨?_, ih⟩
      cases hl with
      | pair _ _ h => cases h <;> trivial

/-! ## Sound layers -/

/-- Carried instructions are sound and products have factors. -/
def IsSound : Layer → Prop
  | annotations instructions | feedback instructions | noise instructions =>
    ∀ i ∈ instructions, i.IsSound
  | product products => ∀ p ∈ products, p.factors ≠ []
  | _ => True

theorem isPlain_pairInstruction {g : Gate} (hkind : g.kind = .clifford2)
    (pairs : List (Nat × Nat)) : (pairInstruction g.name pairs).IsPlain := by
  have heven : ∀ ps : List (Nat × Nat),
      (ps.flatMap fun p => [Target.qubit p.1, .qubit p.2]).length % 2 = 0 := by
    intro ps
    induction ps with
    | nil => rfl
    | cons p ps ih =>
      simp only [List.flatMap_cons, List.length_append, List.length_cons, List.length_nil]
      omega
  refine ⟨g, (pairs.mergeSort natPairLe).flatMap fun p => [p.1, p.2], rfl, ?_, ?_, ?_⟩
  · simp [pairInstruction, List.map_flatMap]
  · simp only [Instruction.targetFault?, hkind, pairInstruction, heven, if_true]
  · revert hkind
    cases g <;> simp [Gate.kind] <;> rfl

theorem isPlain_groupedPairs {entries : List (String × (Nat × Nat))}
    (h : ∀ entry ∈ entries, ∃ g : Gate, entry.1 = g.name ∧ g.kind = .clifford2) :
    ∀ i ∈ groupedPairs entries, i.IsPlain := by
  intro i hi
  rw [groupedPairs_eq] at hi
  obtain ⟨group, hgroup, rfl⟩ := List.mem_map.1 hi
  obtain ⟨entry, hentry, hname⟩ := name_of_mem_grouped hgroup
  obtain ⟨g, hg, hkind⟩ := h entry hentry
  rw [hname, hg]
  exact isPlain_pairInstruction hkind group.2

theorem kind_interaction_gate (i : Interaction) : i.gate.kind = .clifford2 := by
  unfold Interaction.gate
  split <;> rfl

theorem isPlain_interactionInstructions (interactions : List Interaction) :
    ∀ i ∈ interactionInstructions interactions, i.IsPlain := by
  refine isPlain_groupedPairs fun entry hentry => ?_
  obtain ⟨i, -, rfl⟩ := List.mem_map.1 hentry
  exact ⟨i.gate, rfl, kind_interaction_gate i⟩

theorem isPlain_pairInstructions {g : Gate} (hkind : g.kind = .clifford2)
    (pairs : List (Nat × Nat)) : ∀ i ∈ pairInstructions g.name pairs, i.IsPlain := by
  intro i hi
  unfold pairInstructions at hi
  split at hi
  · simp at hi
  · obtain rfl := List.mem_singleton.1 hi
    exact isPlain_pairInstruction hkind pairs

theorem kind_fusedSwap? {i : Interaction} {g : Gate} (h : fusedSwap? i = some g) :
    g.kind = .clifford2 := by
  unfold fusedSwap? at h
  split at h <;> cases h <;> rfl

theorem isPlain_interactSwapInstructions (interactions : List Interaction) :
    ∀ i ∈ interactSwapInstructions interactions, i.IsPlain := by
  refine List.forall_mem_append.2 ⟨isPlain_groupedPairs fun entry hentry => ?_, ?_⟩
  · obtain ⟨i, -, hi⟩ := List.mem_filterMap.1 hentry
    obtain ⟨g, hg, rfl⟩ := Option.map_eq_some_iff.1 hi
    exact ⟨g, rfl, kind_fusedSwap? hg⟩
  · split
    · simp
    · refine List.forall_mem_append.2 ⟨List.forall_mem_append.2
        ⟨isPlain_interactionInstructions _, ?_⟩, isPlain_pairInstructions rfl _⟩
      exact List.forall_mem_singleton.2 Instruction.isPlain_tick

theorem isPlain_rotationInstructions (rotations : OrderedMap Nat Rotation) :
    ∀ i ∈ rotationInstructions rotations, i.IsPlain := by
  intro i hi
  rw [rotationInstructions_eq] at hi
  obtain ⟨group, hgroup, rfl⟩ := List.mem_map.1 hi
  obtain ⟨entry, hentry, hname⟩ := name_of_mem_grouped hgroup
  obtain ⟨e, -, rfl⟩ := List.mem_map.1 hentry
  rw [hname]
  exact @Instruction.isPlain_onQubits (.rotate e.2)
    (by simp [Instruction.targetFault?, Gate.kind]) rfl group.2 []

/-- Whether a layer is written without results, annotations or carried instructions. -/
def isSilent : Layer → Bool
  | measure _ | product _ | annotations _ | feedback _ | noise _ | loop _ _ => false
  | _ => true

/-- A silent layer is written with plain instructions. -/
theorem isPlain_of_mem_instructions {l : Layer} (hl : l.isSilent = true) :
    ∀ i ∈ l.instructions, i.IsPlain := by
  cases l with
  | empty => simp [instructions]
  | rotation rotations => exact isPlain_rotationInstructions rotations
  | interact interactions => exact isPlain_interactionInstructions interactions
  | swap pairs => exact @isPlain_pairInstructions .swap rfl pairs
  | iswap pairs => exact @isPlain_pairInstructions .iswap rfl pairs
  | interactSwap interactions => exact isPlain_interactSwapInstructions interactions
  | reset resets =>
    intro i hi
    obtain ⟨entry, -, rfl⟩ := List.mem_map.1 hi
    exact @Instruction.isPlain_onQubits (.reset entry.2)
      (by simp [Instruction.targetFault?, Gate.kind]) rfl [entry.1] []
  | coords positions =>
    intro i hi
    obtain ⟨entry, -, rfl⟩ := List.mem_map.1 hi
    exact @Instruction.isPlain_onQubits .qubitCoords
      (by simp [Instruction.targetFault?, Gate.kind]) rfl [entry.1] entry.2
  | shift offset =>
    refine List.forall_mem_singleton.2 ⟨.shiftCoords, [], rfl, rfl, ?_, rfl⟩
    simp [Instruction.targetFault?, Gate.kind]
  | measure _ | product _ | annotations _ | feedback _ | noise _ | loop _ _ =>
    simp [isSilent] at hl

/-- The targets of the factors of a product. -/
def factorTargets (factors : List (Nat × Basis)) : List Target :=
  factors.map fun factor => .pauli factor.2 factor.1

theorem productInstruction_eq (p : MeasuredProduct) :
    productInstruction p =
      { name := Gate.measureProduct.name
        targets := Target.joinProduct (factorTargets p.factors)
        args := p.args } := rfl

theorem isPauli_of_mem_factorTargets {factors : List (Nat × Basis)} {t : Target}
    (h : t ∈ factorTargets factors) : t.isPauli = true := by
  obtain ⟨factor, -, rfl⟩ := List.mem_map.1 h
  rfl

theorem isSound_productInstruction {p : MeasuredProduct} (hp : p.factors ≠ []) :
    (productInstruction p).IsSound := by
  rw [productInstruction_eq]
  refine ⟨Instruction.isChecked_iff.2 ⟨.measureProduct, rfl, ?_⟩, fun hkind => ?_⟩
  · refine Instruction.targetFault?_joinProduct (.inl rfl) ?_ fun t => isPauli_of_mem_factorTargets
    simpa [factorTargets] using hp
  · rw [Instruction.kind_of_gate? (@Instruction.gate?_of_name _ .measureProduct rfl)] at hkind
    simp [Gate.kind] at hkind

theorem isSound_measure (t : MeasureTarget) :
    (Instruction.onQubits (.measure t.basis) [t.qubit] t.args).IsSound := by
  refine ⟨Instruction.isChecked_iff.2 ⟨.measure t.basis, rfl, ?_⟩, fun _ => ?_⟩
  · simp [Instruction.targetFault?, Gate.kind]
  · exact List.forall_mem_singleton.2 rfl

/-- A layer is written with instructions that have a property when those that it carries have it,
and plain instructions and measurements have it. -/
theorem forall_mem_instructions {p : Instruction → Prop} {l : Layer} (hl : Carries p l)
    (hplain : ∀ i : Instruction, i.IsPlain → p i)
    (hmeasure : ∀ t : MeasureTarget, p (.onQubits (.measure t.basis) [t.qubit] t.args))
    (hproduct : ∀ x : MeasuredProduct, x.factors ≠ [] → p (productInstruction x)) :
    ∀ i ∈ l.instructions, p i := by
  by_cases hsilent : l.isSilent = true
  · intro i hi
    exact hplain i (isPlain_of_mem_instructions hsilent i hi)
  · intro i hi
    cases l with
    | measure targets =>
      obtain ⟨t, -, rfl⟩ := List.mem_map.1 hi
      exact hmeasure t
    | product products =>
      obtain ⟨x, hx, rfl⟩ := List.mem_map.1 hi
      exact hproduct x (hl x hx)
    | annotations _ | feedback _ | noise _ => exact hl i hi
    | loop count body => simp [instructions] at hi
    | _ => exact absurd rfl hsilent

theorem isChecked_of_mem_instructions {l : Layer} (hl : Carries Instruction.IsChecked l) :
    ∀ i ∈ l.instructions, i.IsChecked :=
  forall_mem_instructions hl (fun _ hi => hi.isSound.1) (fun t => (isSound_measure t).1)
    fun _ hx => (isSound_productInstruction hx).1

theorem isSound_eq_carries : IsSound = Carries Instruction.IsSound := by
  funext l
  cases l <;> rfl

/-- A sound layer is written with sound instructions. -/
theorem isSound_of_mem_instructions {l : Layer} (hl : l.IsSound) :
    ∀ i ∈ l.instructions, i.IsSound := by
  rw [isSound_eq_carries] at hl
  exact forall_mem_instructions hl (fun _ hi => hi.isSound) isSound_measure
    fun _ hx => isSound_productInstruction hx

theorem stable_isSound : Stable IsSound := by
  rw [isSound_eq_carries]
  exact stable_carries _

theorem stableToZ_isSound : StableToZ IsSound := by
  rw [isSound_eq_carries]
  exact stableToZ_carries _

/-- A sound instruction yields sound layers. -/
theorem isSound_of_yields {i : Instruction} {more : List Layer} (hi : i.IsSound)
    (h : LayerCircuit.Yields i more) : ∀ l ∈ more, l.IsSound := by
  rw [isSound_eq_carries]
  exact carries_of_yields hi.1 (fun _ => hi) h

end Layer

end StabCircuit
