import StabCircuit.Proofs.Noise.EveryMoment
import StabCircuit.Proofs.Patch.Emission

/-!
# Calls without noise

Calls that measure, annotate and separate moments append instructions without noise.
So do the rounds of a patch, in either style.
-/

namespace StabCircuit

/-- A gate over qubits is without noise when it is none and has targets it can take. -/
theorem Instruction.isNoiseless_onQubits {g : Gate} {qubits : List Nat}
    (hfault : targetFault? g (qubits.map .qubit) = none) (hnoise : g.kind.isNoise = false)
    (hne : qubits ≠ []) : (onQubits g qubits []).IsNoiseless where
  sound := by
    refine ⟨isChecked_iff.2 ⟨g, rfl, hfault⟩, fun _ t ht => ?_⟩
    obtain ⟨q, -, rfl⟩ := List.mem_map.1 ht
    rfl
  noise := by rwa [kind_of_gate? (gate?_of_name rfl)]
  args := fun _ => rfl
  qubits := by
    intro _
    rwa [(NoiseContext.reads_qubits g).written]

namespace Build

/-- The builder has gone on from another by instructions without noise. -/
structure AddsNoiseless (b b' : Builder) : Prop where
  layout : b'.layout = b.layout
  circuit : ∃ is : List Instruction, (∀ i ∈ is, i.IsNoiseless) ∧
    b'.circuit = is.foldl Circuit.push b.circuit

variable {b b' b'' : Builder}

theorem addsNoiseless_refl (b : Builder) (t : Tracker) : AddsNoiseless b { b with tracker := t } :=
  ⟨rfl, [], by simp, rfl⟩

theorem AddsNoiseless.trans (h : AddsNoiseless b b') (h' : AddsNoiseless b' b'') :
    AddsNoiseless b b'' := by
  obtain ⟨is, his, hcircuit⟩ := h.circuit
  obtain ⟨js, hjs, hcircuit'⟩ := h'.circuit
  refine ⟨h'.layout.trans h.layout, is ++ js, List.forall_mem_append.2 ⟨his, hjs⟩, ?_⟩
  rw [hcircuit', hcircuit, List.foldl_append]

theorem addsNoiseless_push {i : Instruction} (hi : i.IsNoiseless) (t : Tracker) :
    AddsNoiseless b { b with circuit := b.circuit.push i, tracker := t } :=
  ⟨rfl, [i], List.forall_mem_singleton.2 hi, rfl⟩

theorem Emits.addsNoiseless {is : List Instruction} {keys measured : List Key}
    (h : Emits b b' is keys measured) (his : ∀ i ∈ is, i.IsNoiseless) : AddsNoiseless b b' :=
  ⟨h.layout, is, his, h.circuit⟩

theorem addsNoiseless_forM {α : Type} {f : α → Build Unit} {xs : List α}
    (hstep : ∀ x ∈ xs, ∀ c c', Gives (f x) c () c' → AddsNoiseless c c')
    (h : Gives (xs.forM f) b () b') : AddsNoiseless b b' := by
  induction xs generalizing b with
  | nil =>
    obtain ⟨-, rfl⟩ := gives_pure.1 h
    exact addsNoiseless_refl b b.tracker
  | cons x xs ih =>
    rw [List.forall_mem_cons] at hstep
    obtain ⟨mid, hx, hxs⟩ := gives_forM_cons.1 h
    exact (hstep.1 b mid hx).trans (ih hstep.2 hxs)

/-! ## Calls -/

theorem addsNoiseless_tick (h : Gives tick b () b') : AddsNoiseless b b' :=
  (emits_tick h).addsNoiseless (List.forall_mem_singleton.2
    (Instruction.isNoiseless_of_isMetadata Instruction.isSound_tick rfl))

theorem isNoiseless_sortedInstruction {layout : OrderedMap Coord Nat} {g : Gate}
    {qubits : List Coord} (hsingle : g.kind.isSingle = true) (hnoise : g.kind.isNoise = false) :
    ∀ i ∈ sortedInstruction layout g qubits, i.IsNoiseless := by
  unfold sortedInstruction
  split
  · simp
  · next hsome =>
    refine List.forall_mem_singleton.2 (Instruction.isNoiseless_onQubits ?_ hnoise ?_)
    · exact Instruction.targetFault?_of_isSingle hsingle _
    · simpa using hsome

theorem addsNoiseless_reset {basis : Basis} {qubits : List Coord}
    (h : Gives (gate (Gate.reset basis).name qubits []) b () b') : AddsNoiseless b b' :=
  (emits_reset h).addsNoiseless (isNoiseless_sortedInstruction rfl rfl)

theorem addsNoiseless_measure {qubits : List Coord} {basis : Basis} {keyOf : Coord → Key}
    {layer : String} (h : Gives (measure qubits basis keyOf layer) b () b') :
    AddsNoiseless b b' :=
  (emits_measure h).addsNoiseless (isNoiseless_sortedInstruction rfl rfl)

theorem addsNoiseless_gate2 {basis : Basis} {pairs : List (Coord × Coord)}
    (h : Gives (gate2 (Gate.controlled .z basis).name pairs) b () b') : AddsNoiseless b b' := by
  obtain ⟨-, rfl⟩ := gives_gate2 (Gate.lookup_name _) h
  rw [arrangePairs_controlled]
  dsimp only [writePairs]
  split
  · exact addsNoiseless_refl b b.tracker
  · next hsome =>
    refine addsNoiseless_push (Instruction.isNoiseless_onQubits ?_ rfl ?_) b.tracker
    · simp [Instruction.targetFault?, Gate.kind, List.length_flatMap, Function.comp_def,
        List.map_const']
    · obtain ⟨p, rest, hpairs⟩ := List.exists_cons_of_ne_nil fun hnil =>
        hsome (List.isEmpty_iff.2 hnil)
      rw [hpairs]
      exact List.cons_ne_nil _ _

theorem addsNoiseless_measureProduct {product : PauliProduct} {key : Key}
    (h : Gives (measureProduct product key none) b () b') : AddsNoiseless b b' := by
  rcases measureProduct_spec h with ⟨-, t, -, rfl⟩ | ⟨hidentity, i, t, hi, -, rfl⟩
  · exact addsNoiseless_refl b t
  · obtain ⟨hne, hpauli⟩ := factors_spec hidentity b.layout
    obtain ⟨hkind, hgroups⟩ := Instruction.targetGroups_product hne hpauli hi
    refine addsNoiseless_push ⟨(Instruction.results_product hne hpauli hi).1, ?_, ?_, ?_⟩ t
    · rw [hkind]
      rfl
    · intro _
      obtain ⟨-, -, rfl⟩ := Instruction.of_make_name hi
      rfl
    · intro _
      rw [← Instruction.flatMap_qubit?_targetGroups, hgroups, List.flatMap_singleton,
        List.filterMap_map]
      simpa [Function.comp_def, Target.qubit?] using hne

theorem addsNoiseless_annotation {g : Gate} (hg : g.kind = .metadata) {targets : List Target}
    {args : List Scalar} {i : Instruction} (hi : Instruction.make g.name targets args = .ok i) :
    AddsNoiseless b { b with circuit := b.circuit.push i } := by
  obtain ⟨hchecked, hkind, -⟩ := Instruction.of_make_name hi
  have hsound := Instruction.isSound_of_kind hchecked (by simp [hkind, hg]) (by simp [hkind, hg])
  exact addsNoiseless_push
    (Instruction.isNoiseless_of_isMetadata hsound (by rw [hkind, hg]; rfl)) b.tracker

theorem addsNoiseless_detector {keys : List Key} {options : DetectorOptions}
    (h : Gives (detector keys options) b () b') : AddsNoiseless b b' := by
  obtain ⟨_, _, i, -, -, hi, rfl⟩ := detector_spec h
  exact addsNoiseless_annotation rfl hi

theorem addsNoiseless_includeObservable {keys : List Key} {index : Nat}
    (h : Gives (includeObservable keys index) b () b') : AddsNoiseless b b' := by
  obtain ⟨_, -, ⟨-, rfl⟩ | ⟨-, i, hi, rfl⟩⟩ := includeObservable_spec h
  · exact addsNoiseless_refl b b.tracker
  · exact addsNoiseless_annotation rfl hi

theorem addsNoiseless_shiftCoords {offset : Coord} {time : Scalar}
    (h : Gives (shiftCoords offset time) b () b') : AddsNoiseless b b' := by
  obtain rfl := gives_modify.1 h
  have hmake : Instruction.make Gate.shiftCoords.name [] [offset.re, offset.im, time] =
      .ok ⟨Gate.shiftCoords.name, [], [offset.re, offset.im, time]⟩ := by
    simp [Instruction.make, Gate.lookup_name, Instruction.targetFault?, Gate.kind]
  exact addsNoiseless_annotation rfl hmake

/-! ## Rounds of a patch -/

theorem addsNoiseless_measureWithAncillas {patch : Patch} {layer : String}
    (h : Gives (measureWithAncillas patch layer) b () b') : AddsNoiseless b b' := by
  unfold measureWithAncillas at h
  obtain ⟨_, reset, hreset, h⟩ := gives_bind.1 h
  obtain ⟨_, ready, htick, h⟩ := gives_bind.1 h
  obtain ⟨_, last, hsteps, hmeasure⟩ := gives_bind.1 h
  have hinteracts : AddsNoiseless ready last := addsNoiseless_forM (fun _ _ c c' hstep => by
    obtain ⟨_, mid, hgates, htick⟩ := gives_bind.1 hstep
    exact (addsNoiseless_forM (fun _ _ _ _ => addsNoiseless_gate2) hgates).trans
      (addsNoiseless_tick htick)) hsteps
  exact (addsNoiseless_reset hreset).trans ((addsNoiseless_tick htick).trans
    (hinteracts.trans (addsNoiseless_measure hmeasure)))

/-- The rounds of a patch are without noise. -/
theorem addsNoiseless_measurePatch {patch : Patch} {save : String} {compare : Option String}
    {style : CheckStyle} (h : Gives (measurePatch patch save compare style) b () b') :
    AddsNoiseless b b' := by
  have hmeasures : ∀ {c c'}, Gives (measureTiles patch save style) c () c' →
      AddsNoiseless c c' := by
    intro c c' hc
    cases style with
    | product => exact addsNoiseless_forM (fun _ _ _ _ => addsNoiseless_measureProduct) hc
    | ancilla => exact addsNoiseless_measureWithAncillas hc
  unfold measurePatch at h
  cases style with
  | product | ancilla =>
    obtain ⟨_, mid, hmeasure, hcompare⟩ := gives_bind.1 h
    refine (hmeasures hmeasure).trans ?_
    cases compare with
    | none =>
      obtain ⟨-, rfl⟩ := gives_pure.1 hcompare
      exact addsNoiseless_refl mid mid.tracker
    | some layer => exact addsNoiseless_forM (fun _ _ _ _ => addsNoiseless_detector) hcompare

end Build

end StabCircuit
