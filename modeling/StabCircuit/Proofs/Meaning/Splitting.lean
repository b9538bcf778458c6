import StabCircuit.Proofs.Meaning.Writing

/-!
# The meaning of split instructions

The layers that a sound instruction yields have the effect of the instruction.  A
measurement with reset is split into all its measurements and then all its resets,
which is the same as long as no qubit is named twice.
-/

namespace StabCircuit

namespace LayerCircuit

open StabCircuit.Action Instruction Layer

variable {i : Instruction}

theorem actions_rotation_of_gate? {r : Rotation} (hg : i.gate? = some (.rotate r))
    (hplain : i.isClassicallyControlled = false) :
    (i.qubits.map fun q => Layer.rotation (OrderedMap.ofList [(q, r)])).flatMap Layer.actions =
      i.actions := by
  have hclassical := isClassical_eq_false hplain (by rw [kind_of_gate? hg]; simp [Gate.kind])
  rw [List.flatMap_map, actions_of_single hg (.inl rfl), Instruction.qubits]
  refine flatMap_qubits fun t ht => ?_
  cases hq : t.qubit? <;>
    simp [pieceActions, Gate.kind, GateKind.isMetadata, hclassical t ht, hq, Layer.actions,
      rotationActions, OrderedMap.ofList, OrderedMap.insertAll, OrderedMap.insert,
      OrderedMap.alter, OrderedMap.alterEntries, OrderedMap.empty]

theorem actions_resetLayers {b : Basis} (hg : i.gate? = some (.reset b))
    (hplain : i.isClassicallyControlled = false) :
    (resetLayers i b).flatMap Layer.actions = i.actions := by
  have hclassical := isClassical_eq_false hplain (by rw [kind_of_gate? hg]; simp [Gate.kind])
  rw [resetLayers, List.flatMap_map, actions_of_single hg (.inr (.inl rfl)), Instruction.qubits]
  refine flatMap_qubits fun t ht => ?_
  cases hq : t.qubit? <;>
    simp [pieceActions, Gate.kind, GateKind.isMetadata, hclassical t ht, hq, Layer.actions]

theorem actions_measureLayers {b : Basis} (hi : i.IsSound) (hg : i.gate? = some (.measure b))
    (hplain : i.isClassicallyControlled = false) :
    (measureLayers i b).flatMap Layer.actions = i.actions := by
  have hkind : i.kind = .measure := kind_of_gate? hg
  have hclassical := isClassical_eq_false hplain (by rw [hkind]; decide)
  rw [measureLayers, List.flatMap_map, actions_of_single hg (.inr (.inr (.inl rfl))),
    Instruction.qubits]
  refine flatMap_qubits fun t ht => ?_
  obtain ⟨q, hq⟩ := Option.isSome_iff_exists.1 (hi.2 (.inl hkind) t ht)
  simp [pieceActions, Gate.kind, GateKind.isMetadata, hclassical t ht, hq, Layer.actions]

theorem sameEffect_measureResetLayers {b : Basis} (hi : i.IsSound) (hapart : i.ResetsApart)
    (hg : i.gate? = some (.measureReset b)) (hplain : i.isClassicallyControlled = false) :
    SameEffect ((measureLayers i b ++ resetLayers i b).flatMap Layer.actions) i.actions := by
  have hkind : i.kind = .measureReset := kind_of_gate? hg
  have hclassical := isClassical_eq_false hplain (by rw [hkind]; decide)
  have hactions : i.actions =
      i.qubits.flatMap fun q => [.measure [(q, b)]] ++ [prepare q b] := by
    rw [actions_of_single hg (.inr (.inr (.inr rfl))), Instruction.qubits]
    refine (flatMap_qubits fun t ht => ?_).symm
    obtain ⟨q, hq⟩ := Option.isSome_iff_exists.1 (hi.2 (.inr hkind) t ht)
    simp [pieceActions, Gate.kind, GateKind.isMetadata, hclassical t ht, hq]
  have hnodup : (i.qubits.flatMap fun q => [q]).Nodup := by
    simpa using hapart hkind
  have hswap := pairwise_swappable (f := fun q => [prepare q b])
    (g := fun q => [.measure [(q, b)]]) hnodup
    (fun q _ => by simp [QuietOn, isQuiet, Action.qubits])
    fun q _ => by simp [InterpretedOn, isInterpreted, Action.qubits]
  rw [hactions, List.flatMap_append, measureLayers, resetLayers, List.flatMap_map,
    List.flatMap_map]
  exact (SameEffect.collect (hswap.imp And.left)).symm

theorem factorsOf_eq (group : List Target) : factorsOf group = group.filterMap Target.factor? := by
  refine List.filterMap_congr fun t _ => ?_
  cases t <;> rfl

theorem actions_productLayers (hg : i.gate? = some .measureProduct)
    (hplain : i.isClassicallyControlled = false) :
    ((Target.productGroups i.targets).map fun group =>
      Layer.product [⟨factorsOf group, i.args⟩]).flatMap Layer.actions = i.actions := by
  have hkind : i.kind = .measureProduct := kind_of_gate? hg
  have hclassical := isClassical_eq_false hplain (by rw [hkind]; decide)
  rw [actions_of_gate? hg, targetGroups, hkind, List.flatMap_map]
  refine List.flatMap_congr fun group hgroup => ?_
  have hnone : group.any Target.isClassical = false := by
    rw [List.any_eq_false]
    exact fun t ht => by simp [hclassical t ((Target.mem_productGroups hgroup).2 t ht).1]
  simp [pieceActions, Gate.kind, GateKind.isMetadata, hnone, Layer.actions, factorsOf_eq]

theorem pieceActions_pair {g : Gate} {s t : Target} {a b : Nat} (hs : s.qubit? = some a)
    (ht : t.qubit? = some b) (numbers : List Int) (hkind : g.kind = .clifford2) :
    pieceActions g numbers [s, t] = match g with
      | .controlled P Q => [controlled P Q a b]
      | .swap => [exchange a b]
      | .iswap => [.iswap a b]
      | .czSwap => [controlled .z .z a b, exchange a b]
      | .controlledSwap => [controlled .z .x a b, exchange a b]
      | .swapControlled => [exchange a b, controlled .z .x a b]
      | g => [.uninterpreted g numbers [s, t]] := by
  have hs' := isClassical_of_qubit? hs
  have ht' := isClassical_of_qubit? ht
  cases g <;> simp [Gate.kind] at hkind <;>
    simp [pieceActions, Gate.kind, GateKind.isMetadata, hs, ht, hs', ht', onTwo]

theorem sameEffect_yieldsTargets {g : Gate} {group : List Target} {l : Layer}
    (h : YieldsTargets g group l) (hkind : g.kind = .clifford2) (numbers : List Int) :
    SameEffect l.actions (pieceActions g numbers group) := by
  obtain @⟨s, t, a, b, l, hs, ht, hpair⟩ := h
  rw [pieceActions_pair hs ht numbers hkind]
  cases hpair with
  | swap => exact sameEffect_exchange_sorted a b
  | iswap => exact sameEffect_iswap_sorted a b
  | czSwap => exact (sameEffect_make a b .z .z).append (sameEffect_exchange_make a b .z .z)
  | controlledSwap =>
    exact (sameEffect_make a b .z .x).append (sameEffect_exchange_make a b .z .x)
  | swapControlled =>
    have hmake := (sameEffect_make b a .z .x).append (sameEffect_exchange_make b a .z .x)
    have hmove := sameEffect_exchange_controlled .z .x b a
    have hcomm := (sameEffect_exchange_comm b a).append_right [controlled .z .x a b]
    exact hmake.trans (hmove.symm.trans hcomm)
  | controlled P Q => exact sameEffect_make a b P Q

theorem sameEffect_pairLayers {g : Gate} {more : List Layer} (hg : i.gate? = some g)
    (hkind : g.kind = .clifford2)
    (hmore : List.Forall₂ (YieldsTargets g) (Target.pairs i.targets) more) :
    SameEffect (more.flatMap Layer.actions) i.actions := by
  rw [actions_of_gate? hg, targetGroups, kind_of_gate? hg, hkind]
  generalize Target.pairs i.targets = groups at hmore
  induction hmore with
  | nil => exact .refl _
  | cons hl _ ih =>
    rw [List.flatMap_cons, List.flatMap_cons]
    exact (sameEffect_yieldsTargets hl hkind _).append ih

/-- The layers that a sound instruction yields have its effect. -/
theorem sameEffect_yields {more : List Layer} (hi : i.IsSound) (hapart : i.ResetsApart)
    (h : Yields i more) : SameEffect (more.flatMap Layer.actions) i.actions := by
  have hmetadata : ∀ {g : Gate}, i.gate? = some g → g.kind.isMetadata = true → i.actions = [] := by
    intro g hg hkind
    exact actions_eq_nil_of_isMetadata (by rwa [kind_of_gate? hg])
  cases h with
  | feedback => exact .of_eq (by simp [Layer.actions])
  | tick hg => exact .of_eq (by simp [Layer.actions, hmetadata hg rfl])
  | coords hg => exact .of_eq (by simp [Layer.actions, hmetadata hg rfl])
  | shift hg => exact .of_eq (by simp [Layer.actions, hmetadata hg rfl])
  | annotated => exact .of_eq (by simp [Layer.actions])
  | rotation r hg hplain => exact .of_eq (actions_rotation_of_gate? hg hplain)
  | reset b hg hplain => exact .of_eq (actions_resetLayers hg hplain)
  | measure b hg hplain => exact .of_eq (actions_measureLayers hi hg hplain)
  | measureReset b hg hplain => exact sameEffect_measureResetLayers hi hapart hg hplain
  | product hg hplain => exact .of_eq (actions_productLayers hg hplain)
  | noise => exact .of_eq (by simp [Layer.actions])
  | pairs g _ hg hkind _ hmore => exact sameEffect_pairLayers hg hkind hmore

end LayerCircuit

end StabCircuit
