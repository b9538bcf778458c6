import StabCircuit.Proofs.Layer.Disjointness

/-!
# The Z-basis normal form

A layer is Z-only when its resets, measurements, factors and interactions are in the Z
basis.  The change to the Z basis leaves such a layer as it is; any other it rewrites
in Z, between layers of rotations.  So all layers of the result are Z-only, at every
depth and whatever the counts of loops, and a second change does nothing.  Measured
qubits keep their order and their arguments, loop by loop.
-/

namespace StabCircuit

namespace Layer

/-! ## Layers at every depth -/

mutual

/-- The layers of a layer at every depth, none of them a loop. -/
def leaves : Layer → List Layer
  | loop _ body => allLeaves body
  | l => [l]

/-- The layers of a layer circuit at every depth, none of them a loop. -/
def allLeaves : List Layer → List Layer
  | [] => []
  | l :: rest => leaves l ++ allLeaves rest

end

theorem leaves_of_isLoop_eq_false {l : Layer} (h : l.isLoop = false) : l.leaves = [l] := by
  cases l with
  | loop count body => simp [isLoop] at h
  | _ => rfl

theorem allLeaves_eq_flatMap (ls : List Layer) : allLeaves ls = ls.flatMap leaves := by
  induction ls with
  | nil => rfl
  | cons l rest ih => rw [allLeaves, ih, List.flatMap_cons]

theorem allLeaves_of_isLoop_eq_false {ls : List Layer} (h : ∀ l ∈ ls, l.isLoop = false) :
    allLeaves ls = ls := by
  rw [allLeaves_eq_flatMap, List.flatMap_congr fun l hl => leaves_of_isLoop_eq_false (h l hl)]
  exact List.flatMap_singleton' ls

theorem allLeaves_toZ_of {ls : List Layer}
    (h : ∀ l ∈ ls, allLeaves (LayerCircuit.layerToZ l) = l.leaves.flatMap LayerCircuit.layerToZ) :
    allLeaves (LayerCircuit.toZ ls) = (allLeaves ls).flatMap LayerCircuit.layerToZ := by
  rw [toZ_eq_flatMap, allLeaves_eq_flatMap, allLeaves_eq_flatMap, List.flatMap_assoc,
    List.flatMap_assoc]
  apply List.flatMap_congr
  intro l hl
  rw [← allLeaves_eq_flatMap, h l hl]

theorem allLeaves_layerToZ (l : Layer) :
    allLeaves (LayerCircuit.layerToZ l) = l.leaves.flatMap LayerCircuit.layerToZ := by
  induction l using loopInduction with
  | plain l hl =>
    rw [allLeaves_of_isLoop_eq_false (isLoop_layerToZ hl), leaves_of_isLoop_eq_false hl,
      List.flatMap_singleton]
  | loop count body ih =>
    rw [LayerCircuit.layerToZ, allLeaves, leaves, leaves, allLeaves_toZ_of ih]
    exact List.append_nil _

/-- The layers of the result are those that the layers of the circuit are changed to. -/
theorem allLeaves_toZ (ls : LayerCircuit) :
    allLeaves (LayerCircuit.toZ ls) = (allLeaves ls).flatMap LayerCircuit.layerToZ :=
  allLeaves_toZ_of fun l _ => allLeaves_layerToZ l

/-! ## The change of one layer -/

/-- The resets, measurements, factors and interactions of a layer are in the Z basis. -/
def IsZOnly : Layer → Prop
  | interact interactions | interactSwap interactions => ∀ i ∈ interactions, i.isZ = true
  | reset resets => ∀ entry ∈ resets, entry.2 = .z
  | measure targets => ∀ t ∈ targets, t.basis = .z
  | product products => ∀ p ∈ products, ∀ factor ∈ p.factors, factor.2 = .z
  | _ => True

/-- The layer with Z in place of every basis. -/
def inZ : Layer → Layer
  | interact interactions => interact (interactions.map Interaction.toZ)
  | interactSwap interactions => interactSwap (interactions.map Interaction.toZ)
  | reset resets => reset (resets.map fun entry => (entry.1, .z))
  | measure targets => measure (targets.map fun t => { t with basis := .z })
  | product products =>
    product (products.map fun p => { p with factors := p.factors.map fun factor => (factor.1, .z) })
  | l => l

/-- A layer that is Z-only is left as it is, and any other is rewritten in Z between rotations. -/
theorem layerToZ_cases {l : Layer} (hl : l.isLoop = false) :
    (l.IsZOnly ∧ LayerCircuit.layerToZ l = [l]) ∨
      (¬ l.IsZOnly ∧ ∃ before after : List (List (Nat × Basis)),
        LayerCircuit.layerToZ l =
          before.map rotationsToZ ++ l.inZ :: after.map rotationsToZ) := by
  cases l with
  | loop count body => simp [isLoop] at hl
  | interact interactions =>
    rw [LayerCircuit.layerToZ]
    split
    · next hall => exact .inl ⟨List.all_eq_true.1 hall, rfl⟩
    · next hall =>
      refine .inr ⟨fun h => hall (List.all_eq_true.2 h), ?_⟩
      exact ⟨[interactions.flatMap Interaction.sides],
        [interactions.flatMap Interaction.sides], rfl⟩
  | interactSwap interactions =>
    rw [LayerCircuit.layerToZ]
    split
    · next hall => exact .inl ⟨List.all_eq_true.1 hall, rfl⟩
    · next hall =>
      refine .inr ⟨fun h => hall (List.all_eq_true.2 h), ?_⟩
      exact ⟨[interactions.flatMap Interaction.sides],
        [interactions.flatMap Interaction.exchangedSides], rfl⟩
  | reset resets =>
    have hiff : (resets.all fun entry => entry.2 == .z) = true ↔ (reset resets).IsZOnly := by
      simp [IsZOnly]
    rw [LayerCircuit.layerToZ, ← hiff]
    split
    · next hall => exact .inl ⟨hall, rfl⟩
    · next hall => exact .inr ⟨hall, [], [resets], rfl⟩
  | measure targets =>
    have hiff : (targets.all fun t => t.basis == .z) = true ↔ (measure targets).IsZOnly := by
      simp [IsZOnly]
    rw [LayerCircuit.layerToZ, ← hiff]
    split
    · next hall => exact .inl ⟨hall, rfl⟩
    · next hall =>
      exact .inr ⟨hall, [targets.map fun t => (t.qubit, t.basis)],
        [targets.map fun t => (t.qubit, t.basis)], rfl⟩
  | product products =>
    have hiff : (products.all fun p => p.factors.all fun factor => factor.2 == .z) = true ↔
        (product products).IsZOnly := by
      simp [IsZOnly]
    rw [LayerCircuit.layerToZ, ← hiff]
    split
    · next hall => exact .inl ⟨hall, rfl⟩
    · next hall =>
      exact .inr ⟨hall, [products.flatMap MeasuredProduct.factors],
        [products.flatMap MeasuredProduct.factors], rfl⟩
  | _ => exact .inl ⟨trivial, rfl⟩

theorem isZ_make (a b : Nat) (P Q : Basis) :
    (Interaction.make a P b Q).isZ = true ↔ P = .z ∧ Q = .z := by
  unfold Interaction.make
  split <;> simp [Interaction.isZ, and_comm]

theorem isZOnly_inZ (l : Layer) : l.inZ.IsZOnly := by
  cases l with
  | interact _ | interactSwap _ => simp [inZ, IsZOnly, Interaction.toZ, isZ_make]
  | reset _ | measure _ => exact List.forall_mem_map.2 fun _ _ => rfl
  | product _ => exact List.forall_mem_map.2 fun _ _ => List.forall_mem_map.2 fun _ _ => rfl
  | _ => trivial

/-- A layer is changed to layers that are Z-only. -/
theorem isZOnly_layerToZ {l : Layer} (hl : l.isLoop = false) :
    ∀ j ∈ LayerCircuit.layerToZ l, j.IsZOnly := by
  obtain ⟨hz, heq⟩ | ⟨-, before, after, heq⟩ := layerToZ_cases hl
  · rw [heq]
    exact List.forall_mem_singleton.2 hz
  · rw [heq, List.forall_mem_append, List.forall_mem_cons, List.forall_mem_map,
      List.forall_mem_map]
    exact ⟨fun _ _ => trivial, isZOnly_inZ l, fun _ _ => trivial⟩

theorem layerToZ_of_isZOnly {l : Layer} (hl : l.isLoop = false) (h : l.IsZOnly) :
    LayerCircuit.layerToZ l = [l] := by
  obtain ⟨-, heq⟩ | ⟨hother, -⟩ := layerToZ_cases hl
  · exact heq
  · exact absurd h hother

/-! ## Qubits -/

theorem slots_inZ_perm {l : Layer} : l.inZ.slots.Perm l.slots := by
  cases l with
  | interact interactions => exact slots_perm_of_map fun i => make_perm _ _ _ _
  | interactSwap interactions =>
    exact @slots_perm_of_map interactions _ fun i => make_perm _ _ _ _
  | reset _ | measure _ => simp [inZ, slots, Function.comp_def]
  | product _ => simp [inZ, slots, Function.comp_def, List.flatMap_map]
  | _ => exact .refl _

/-- A layer that repeats no qubit is changed to layers that repeat none. -/
theorem nodup_layerToZ {l : Layer} (hl : l.isLoop = false) (h : l.slots.Nodup) :
    ∀ j ∈ LayerCircuit.layerToZ l, j.slots.Nodup := by
  have hrotations : ∀ entries, (rotationsToZ entries).slots.Nodup :=
    fun entries => OrderedMap.nodup_keys _
  obtain ⟨-, heq⟩ | ⟨-, before, after, heq⟩ := layerToZ_cases hl
  · rw [heq]
    exact List.forall_mem_singleton.2 h
  · rw [heq, List.forall_mem_append, List.forall_mem_cons, List.forall_mem_map,
      List.forall_mem_map]
    exact ⟨fun entries _ => hrotations entries, slots_inZ_perm.nodup_iff.2 h,
      fun entries _ => hrotations entries⟩

/-! ## Measurements -/

/-- What is measured, by whatever bases. -/
inductive Measured where
  /-- One qubit. -/
  | single (qubit : Nat) (args : List Scalar)
  /-- A product over qubits. -/
  | product (qubits : List Nat) (args : List Scalar)
  /-- What is measured in every iteration of a loop. -/
  | loop (count : Nat) (body : List Measured)

mutual

/-- What a layer measures, in order. -/
def measured : Layer → List Measured
  | measure targets => targets.map fun t => .single t.qubit t.args
  | product products => products.map fun p => .product (p.factors.map Prod.fst) p.args
  | loop count body => [.loop count (allMeasured body)]
  | _ => []

/-- What layers measure, in order. -/
def allMeasured : List Layer → List Measured
  | [] => []
  | l :: rest => measured l ++ allMeasured rest

end

theorem allMeasured_eq_flatMap (ls : List Layer) : allMeasured ls = ls.flatMap measured := by
  induction ls with
  | nil => rfl
  | cons l rest ih => rw [allMeasured, ih, List.flatMap_cons]

theorem measured_inZ (l : Layer) : l.inZ.measured = l.measured := by
  cases l <;> simp [inZ, measured, Function.comp_def]

theorem allMeasured_rotationsToZ (entries : List (List (Nat × Basis))) :
    (entries.map rotationsToZ).flatMap measured = [] := by
  rw [List.flatMap_map, List.flatMap_eq_nil_iff]
  exact fun _ _ => rfl

theorem allMeasured_toZ_of {ls : List Layer}
    (h : ∀ l ∈ ls, allMeasured (LayerCircuit.layerToZ l) = l.measured) :
    allMeasured (LayerCircuit.toZ ls) = allMeasured ls := by
  rw [toZ_eq_flatMap, allMeasured_eq_flatMap, allMeasured_eq_flatMap, List.flatMap_assoc]
  apply List.flatMap_congr
  intro l hl
  rw [← allMeasured_eq_flatMap, h l hl]

theorem allMeasured_layerToZ (l : Layer) : allMeasured (LayerCircuit.layerToZ l) = l.measured := by
  induction l using loopInduction with
  | plain l hl =>
    rw [allMeasured_eq_flatMap]
    obtain ⟨-, heq⟩ | ⟨-, before, after, heq⟩ := layerToZ_cases hl
    · rw [heq, List.flatMap_singleton]
    · rw [heq, List.flatMap_append, List.flatMap_cons, allMeasured_rotationsToZ,
        allMeasured_rotationsToZ, measured_inZ, List.nil_append, List.append_nil]
  | loop count body ih =>
    rw [LayerCircuit.layerToZ, measured, allMeasured, measured, allMeasured_toZ_of ih]
    rfl

/-- The change to the Z basis keeps what is measured. -/
theorem allMeasured_toZ (ls : LayerCircuit) :
    allMeasured (LayerCircuit.toZ ls) = allMeasured ls :=
  allMeasured_toZ_of fun l _ => allMeasured_layerToZ l

end Layer

namespace LayerCircuit

open Layer

theorem isLoop_of_mem_allLeaves {ls : List Layer} : ∀ l ∈ allLeaves ls, l.isLoop = false := by
  have hlayer : ∀ l : Layer, ∀ j ∈ l.leaves, j.isLoop = false := by
    intro l
    induction l using loopInduction with
    | plain l hl =>
      rw [leaves_of_isLoop_eq_false hl]
      exact List.forall_mem_singleton.2 hl
    | loop count body ih =>
      intro j hj
      rw [leaves, allLeaves_eq_flatMap] at hj
      obtain ⟨l, hl, hj⟩ := List.mem_flatMap.1 hj
      exact ih l hl j hj
  intro j hj
  rw [allLeaves_eq_flatMap] at hj
  obtain ⟨l, -, hj⟩ := List.mem_flatMap.1 hj
  exact hlayer l j hj

/-- The change to the Z basis makes all layers Z-only. -/
theorem isZOnly_toZ (ls : LayerCircuit) : ∀ l ∈ allLeaves (toZ ls), l.IsZOnly := by
  intro j hj
  rw [allLeaves_toZ] at hj
  obtain ⟨l, hl, hj⟩ := List.mem_flatMap.1 hj
  exact isZOnly_layerToZ (isLoop_of_mem_allLeaves l hl) j hj

theorem toZ_eq_self_of_forall {ls : List Layer} (h : ∀ l ∈ ls, layerToZ l = [l]) :
    toZ ls = ls := by
  rw [toZ_eq_flatMap, List.flatMap_congr h]
  exact List.flatMap_singleton' ls

/-- Layers that are Z-only are left as they are. -/
theorem toZ_of_isZOnly {ls : LayerCircuit} (h : ∀ l ∈ allLeaves ls, l.IsZOnly) : toZ ls = ls := by
  have hlayer : ∀ l : Layer, (∀ j ∈ l.leaves, j.IsZOnly) → layerToZ l = [l] := by
    intro l hl
    induction l using loopInduction with
    | plain l hplain =>
      rw [leaves_of_isLoop_eq_false hplain] at hl
      exact layerToZ_of_isZOnly hplain (List.forall_mem_singleton.1 hl)
    | loop count body ih =>
      rw [leaves, allLeaves_eq_flatMap] at hl
      rw [layerToZ, toZ_eq_self_of_forall fun l hmem =>
        ih l hmem fun j hj => hl j (List.mem_flatMap.2 ⟨l, hmem, hj⟩)]
  rw [allLeaves_eq_flatMap] at h
  exact toZ_eq_self_of_forall fun l hmem =>
    hlayer l fun j hj => h j (List.mem_flatMap.2 ⟨l, hmem, hj⟩)

/-- The change to the Z basis gives a normal form: all layers are Z-only, at every depth, and layers
that are so already are left as they are.  It keeps what is measured, loop by loop and in order,
and brings about no layer that repeats a qubit. -/
theorem toZ_normalizes (ls : LayerCircuit) :
    (∀ l ∈ allLeaves (toZ ls), l.IsZOnly) ∧
      ((∀ l ∈ allLeaves ls, l.IsZOnly) → toZ ls = ls) ∧
      toZ (toZ ls) = toZ ls ∧
      allMeasured (toZ ls) = allMeasured ls ∧
      allLeaves (toZ ls) = (allLeaves ls).flatMap layerToZ ∧
      ∀ l ∈ allLeaves ls, l.slots.Nodup → ∀ j ∈ layerToZ l, j.slots.Nodup := by
  refine ⟨isZOnly_toZ ls, toZ_of_isZOnly, toZ_of_isZOnly (isZOnly_toZ ls), allMeasured_toZ ls,
    allLeaves_toZ ls, ?_⟩
  intro l hl
  exact nodup_layerToZ (isLoop_of_mem_allLeaves l hl)

end LayerCircuit

end StabCircuit
