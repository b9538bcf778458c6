import Mathlib.Data.PNat.Basic
import StabCircuit.Proofs.Builder.Calls
import StabCircuit.Proofs.Record.References

/-!
# Programs of builder calls

A program is a list of calls and loops.  The body of a loop runs on a fork, and its
circuit is spliced in, repeated, when it is done.  After every program that succeeds
the tracker has counted the results of the circuit, binds every measured key to the
last result for it, and every record target refers to the parity of its keys.
-/

namespace StabCircuit

/-- A call on a builder. -/
inductive Call where
  /-- A single-qubit gate, reset or error channel. -/
  | gate (name : String) (qubits : List Coord) (args : List Scalar)
  /-- A two-qubit gate. -/
  | gate2 (name : String) (pairs : List (Coord × Coord))
  /-- A step boundary. -/
  | tick
  /-- A shift of detector coordinates. -/
  | shiftCoords (offset : Coord) (time : Scalar)
  /-- Measurements of qubits. -/
  | measure (qubits : List Coord) (basis : Basis) (keyOf : Coord → Key) (layer : String)
  /-- The measurement of a product. -/
  | measureProduct (product : PauliProduct) (key : Key) (flip : Option Scalar)
  /-- A detector. -/
  | detector (keys : List Key) (options : DetectorOptions)
  /-- A part of an observable. -/
  | includeObservable (keys : List Key) (index : Nat)
  /-- Classically controlled Paulis. -/
  | classicalPaulis (keys : List Key) (qubits : List Coord) (basis : Basis)
  /-- A key for the parity of keys. -/
  | group (parts : List Key) (key : Key)
  /-- A key that may not be referenced. -/
  | obstacle (key : Key)

namespace Call

/-- Runs a call. -/
def run : Call → Build Unit
  | gate name qubits args => Build.gate name qubits args
  | gate2 name pairs => Build.gate2 name pairs
  | tick => Build.tick
  | shiftCoords offset time => Build.shiftCoords offset time
  | measure qubits basis keyOf layer => Build.measure qubits basis keyOf layer
  | measureProduct product key flip => Build.measureProduct product key flip
  | detector keys options => Build.detector keys options
  | includeObservable keys index => Build.includeObservable keys index
  | classicalPaulis keys qubits basis => Build.classicalPaulis keys qubits basis
  | group parts key => Build.updateTracker fun t => t.recordGroup parts key
  | obstacle key => Build.updateTracker fun t => t.recordObstacle key

/-- The results of a call, each with the key that it is measured for. -/
def emitted (layout : OrderedMap Coord Nat) : Call → List (Key × List Nat)
  | measure qubits _ keyOf layer =>
    (Coord.sort qubits).map fun q => (.atLayer (keyOf q) layer, [indexIn layout q])
  | measureProduct product key _ =>
    if product.isIdentity then [] else [(key, product.terms.map fun term => indexIn layout term.1)]
  | _ => []

/-- A reference to a set of results, none when the set is empty. -/
def reference (g : Gate) (indices : Finset Nat) : List RecordEvent :=
  if indices = ∅ then [] else [.reference g.name (indices.sort.map Int.ofNat) [] []]

/-- The references of a call: what its record targets mean is the symmetric difference of the index
sets that its keys have at the time. -/
def references (b : Builder) : Call → List RecordEvent
  | detector keys options =>
    reference .detector (b.tracker.parity (Build.detectorKeys b.tracker keys options))
  | includeObservable keys _ => reference .observableInclude (b.tracker.parity keys)
  | classicalPaulis keys qubits basis =>
    (b.tracker.parity keys).sort.flatMap fun index => (Coord.sort qubits).map fun q =>
      .reference (Gate.controlled .z basis).name [Int.ofNat index] [] [indexIn b.layout q]
  | _ => []

end Call

/-- A step of a program: a call, or a loop that runs at least once. -/
inductive Step where
  /-- A call. -/
  | call (call : Call)
  /-- A body that runs a number of times. -/
  | loop (count : ℕ+) (body : List Step)

namespace Step

/-- The builder after calls, when they succeed. -/
def after (b : Builder) (calls : Build Unit) : Except CircuitError Builder :=
  (Build.outcome calls b).1.map fun _ => (Build.outcome calls b).2

mutual

/-- Runs a step.  The body of a loop runs on a fork, which shares the tracker. -/
def run (b : Builder) : Step → Except CircuitError Builder
  | call c => after b c.run
  | loop count body => do
    let child ← runAll b.fork body
    after { b with tracker := child.tracker } (Build.appendRepeated child.circuit count)

/-- Runs steps one after another. -/
def runAll (b : Builder) : List Step → Except CircuitError Builder
  | [] => .ok b
  | step :: rest => do
    let next ← run b step
    runAll next rest

end

mutual

/-- The results of a step with loops unrolled, each with its key. -/
def emitted (layout : OrderedMap Coord Nat) : Step → List (Key × List Nat)
  | call c => c.emitted layout
  | loop count body => (List.replicate count (emittedAll layout body)).flatten

/-- The results of steps with loops unrolled, each with its key. -/
def emittedAll (layout : OrderedMap Coord Nat) : List Step → List (Key × List Nat)
  | [] => []
  | step :: rest => emitted layout step ++ emittedAll layout rest

end

mutual

/-- The references of a step, in the first iteration of every loop. -/
def references (b : Builder) : Step → List RecordEvent
  | call c => c.references b
  | loop _ body => referencesAll b.fork body

/-- The references of steps, in the first iteration of every loop. -/
def referencesAll (b : Builder) : List Step → List RecordEvent
  | [] => []
  | step :: rest =>
    references b step ++ (run b step).toOption.elim [] fun next => referencesAll next rest

end

end Step

/-! ## Instructions of calls -/

namespace Instruction

theorem isSound_of_kind {i : Instruction} (hi : i.IsChecked) (hkind : i.kind ≠ .measure)
    (hkind' : i.kind ≠ .measureReset) : i.IsSound :=
  ⟨hi, fun h => (h.elim hkind hkind').elim⟩

theorem of_make_name {g : Gate} {targets : List Target} {args : List Scalar} {i : Instruction}
    (h : make g.name targets args = .ok i) :
    i.IsChecked ∧ i.kind = g.kind ∧ i = { name := g.name, targets, args } := by
  obtain ⟨g', hg', -, rfl⟩ := isChecked_of_make h
  rw [Gate.lookup_name] at hg'
  cases hg'
  exact ⟨.of_make h, kind_of_gate? (gate?_of_name rfl), rfl⟩

/-- A measurement of qubits has one result a qubit. -/
theorem results_measure {basis : Basis} {indices : List Nat} {i : Instruction}
    (h : make (Gate.measure basis).name (indices.map .qubit) [] = .ok i) :
    i.IsSound ∧ i.kind.isMeasurement = true ∧ i.results = indices.map ([·]) := by
  obtain ⟨hchecked, hkind, rfl⟩ := of_make_name h
  refine ⟨⟨hchecked, fun _ t ht => ?_⟩, by rw [hkind]; rfl, ?_⟩
  · obtain ⟨index, -, rfl⟩ := List.mem_map.1 ht
    rfl
  · rw [results, targetGroups_of_isSingle (by rw [hkind]; rfl), hkind]
    simp [Gate.kind, GateKind.isMeasurement, Target.qubit?]

/-- The measurement of a product has one group of targets, its factors. -/
theorem targetGroups_product {factors : List Target} (hne : factors ≠ [])
    (hpauli : ∀ t ∈ factors, t.isPauli = true) {args : List Scalar} {i : Instruction}
    (h : make Gate.measureProduct.name (Target.joinProduct factors) args = .ok i) :
    i.kind = .measureProduct ∧ i.targetGroups = [factors] := by
  obtain ⟨-, hkind, rfl⟩ := of_make_name h
  have hcombiner : ∀ t ∈ factors, t.isCombiner = false := by
    intro t ht
    cases t with
    | combiner => exact absurd (hpauli _ ht) (by simp [Target.isPauli])
    | _ => rfl
  refine ⟨hkind, ?_⟩
  rw [targetGroups_of_isProduct (by rw [hkind]; rfl),
    Target.productGroups_joinProduct hne hcombiner]

/-- The measurement of a product has one result. -/
theorem results_product {factors : List Target} (hne : factors ≠ [])
    (hpauli : ∀ t ∈ factors, t.isPauli = true) {args : List Scalar} {i : Instruction}
    (h : make Gate.measureProduct.name (Target.joinProduct factors) args = .ok i) :
    i.IsSound ∧ i.kind.isMeasurement = true ∧ i.results = [factors.filterMap Target.qubit?] := by
  obtain ⟨hkind, hgroups⟩ := targetGroups_product hne hpauli h
  have hchecked := (of_make_name h).1
  refine ⟨isSound_of_kind hchecked (by rw [hkind]; decide) (by rw [hkind]; decide),
    by rw [hkind]; rfl, ?_⟩
  rw [results, hgroups, hkind]
  rfl

/-- An annotation has no results and one reference, to all its targets, if it has any. -/
theorem references_annotated {g : Gate} (hkind : g.kind = .metadata) {offsets : List Int}
    {args : List Scalar} {i : Instruction}
    (h : make g.name (offsets.map .record) args = .ok i) :
    i.IsSound ∧ i.results = [] ∧
      i.references = if offsets = [] then [] else [.reference g.name offsets [] []] := by
  obtain ⟨hchecked, hkind', rfl⟩ := of_make_name h
  rw [hkind] at hkind'
  have hoffsets : (offsets.map Target.record).filterMap Target.offset? = offsets := by
    rw [List.filterMap_map]
    exact List.filterMap_some
  have hsweeps : (offsets.map Target.record).filterMap Target.sweep? = [] := by
    simp [Target.sweep?]
  have hqubits : (offsets.map Target.record).filterMap Target.qubit? = [] := by
    simp [Target.qubit?]
  refine ⟨isSound_of_kind hchecked (by rw [hkind']; decide) (by rw [hkind']; decide), ?_, ?_⟩
  · rw [results, hkind']
    rfl
  · rw [references, targetGroups, hkind', List.flatMap_singleton, pieceReference, hoffsets, hsweeps,
      hqubits]
    cases offsets with
    | nil => rfl
    | cons offset offsets => rfl

theorem references_controlledPauli {basis : Basis} {offset : Int} {index : Nat}
    (h : (Build.controlledPauli basis (.record offset) index).IsChecked) :
    (Build.controlledPauli basis (.record offset) index).IsSound ∧
      (Build.controlledPauli basis (.record offset) index).results = [] ∧
      (Build.controlledPauli basis (.record offset) index).references =
        [.reference (Gate.controlled .z basis).name [offset] [] [index]] := by
  have hkind : (Build.controlledPauli basis (.record offset) index).kind = .clifford2 :=
    kind_of_gate? (@gate?_of_name _ (.controlled .z basis) rfl)
  refine ⟨isSound_of_kind h (by rw [hkind]; decide) (by rw [hkind]; decide), ?_, ?_⟩
  · rw [results, hkind]
    rfl
  · rw [references, targetGroups_of_isPairwise (by rw [hkind]; rfl)]
    rfl

/-- Offsets back from the present mean the results that they were made for. -/
theorem shifted_reference (name : String) (indices : List Nat) (count : Nat) (qubits : List Nat) :
    RecordEvent.shifted count
        (.reference name (indices.map fun (index : Nat) => (index - count : Int)) [] qubits) =
      .reference name (indices.map Int.ofNat) [] qubits := by
  rw [RecordEvent.shifted, List.map_map]
  congr 1
  refine List.map_congr_left fun index _ => ?_
  simp

theorem isSound_of_mem_feedback {basis : Basis} {offsets : List Int} {qubits : List Nat}
    {i : Instruction} (h : i ∈ Build.feedback basis (offsets.map .record) qubits)
    (hi : i.IsChecked) : i.IsSound ∧ i.results = [] := by
  obtain ⟨control, hcontrol, h⟩ := List.mem_flatMap.1 h
  obtain ⟨offset, -, rfl⟩ := List.mem_map.1 hcontrol
  obtain ⟨q, -, rfl⟩ := List.mem_map.1 h
  obtain ⟨hsound, hresults, -⟩ := references_controlledPauli hi
  exact ⟨hsound, hresults⟩

/-- Feedback refers to every result that controls it, once a qubit. -/
theorem references_feedback {basis : Basis} {offsets : List Int} {qubits : List Nat}
    (h : ∀ i ∈ Build.feedback basis (offsets.map .record) qubits, i.IsChecked) :
    (Build.feedback basis (offsets.map .record) qubits).flatMap references =
      offsets.flatMap fun offset => qubits.map fun q =>
        .reference (Gate.controlled .z basis).name [offset] [] [q] := by
  unfold Build.feedback at h ⊢
  rw [List.flatMap_map] at h ⊢
  rw [List.flatMap_assoc]
  refine List.flatMap_congr fun offset hoffset => ?_
  rw [List.flatMap_map, List.map_eq_flatMap]
  refine List.flatMap_congr fun q hq => ?_
  have hchecked := h _ (List.mem_flatMap.2 ⟨offset, hoffset, List.mem_map_of_mem hq⟩)
  exact (references_controlledPauli hchecked).2.2

end Instruction

/-- The factors of a product that is not the identity, as targets. -/
theorem Build.factors_spec {product : PauliProduct} (h : product.isIdentity = false)
    (layout : OrderedMap Coord Nat) :
    (product.terms.map fun term => Target.pauli term.2 (indexIn layout term.1)) ≠ [] ∧
      ∀ t ∈ product.terms.map fun term => Target.pauli term.2 (indexIn layout term.1),
        t.isPauli = true := by
  constructor
  · rw [Ne, List.map_eq_nil_iff, ← List.isEmpty_iff]
    exact Bool.eq_false_iff.1 h
  · intro t ht
    obtain ⟨term, -, rfl⟩ := List.mem_map.1 ht
    rfl

/-! ## What calls add -/

/-- The builder is sound and its tracker follows a record. -/
structure Builder.InStep (record : List (Key × List Nat)) (b : Builder) : Prop where
  sound : Circuit.Everywhere Instruction.IsSound b.circuit
  follows : b.tracker.Follows record

/-- A builder has gone on from another: the circuit has more results and references, and the
tracker follows the record with these results. -/
structure Builder.Advances (record : List (Key × List Nat)) (b b' : Builder)
    (emitted : List (Key × List Nat)) (refs : List RecordEvent) : Prop where
  layout : b'.layout = b.layout
  circuit : Circuit.Adds b.tracker.count b.circuit b'.circuit (emitted.map Prod.snd) refs
  follows : b'.tracker.Follows (record ++ emitted)

namespace Builder

variable {record emitted : List (Key × List Nat)} {refs : List RecordEvent} {b b' : Builder}

theorem Advances.inStep (h : Advances record b b' emitted refs) : InStep (record ++ emitted) b' :=
  ⟨h.circuit.sound, h.follows⟩

theorem InStep.fork (hb : InStep record b) : InStep record b.fork :=
  ⟨Circuit.everywhere_nil _, hb.follows⟩

theorem InStep.advances_refl (hb : InStep record b) : Advances record b b [] [] :=
  ⟨rfl, Circuit.adds_refl hb.sound _, by rw [List.append_nil]; exact hb.follows⟩

theorem InStep.advances_trans (hb : InStep record b) {b'' : Builder}
    {emitted' : List (Key × List Nat)} {refs' : List RecordEvent}
    (h : Advances record b b' emitted refs)
    (h' : Advances (record ++ emitted) b' b'' emitted' refs') :
    Advances record b b'' (emitted ++ emitted') (refs ++ refs') := by
  have hcount : b'.tracker.count = b.tracker.count + (emitted.map Prod.snd).length := by
    rw [h.follows.count, hb.follows.count, List.length_append, List.length_map]
  have hcircuit := h'.circuit
  rw [hcount] at hcircuit
  refine ⟨h'.layout.trans h.layout, ?_, ?_⟩
  · rw [List.map_append]
    exact h.circuit.trans hcircuit
  · rw [← List.append_assoc]
    exact h'.follows

theorem InStep.advances_push_plain (hb : InStep record b) {i : Instruction} (hi : i.IsPlain) :
    Advances record b { b with circuit := b.circuit.push i } [] [] :=
  ⟨rfl, Circuit.adds_push_plain hb.sound hi _, by rw [List.append_nil]; exact hb.follows⟩

theorem InStep.advances_appendsPlain (hb : InStep record b) (h : Build.AppendsPlain b b') :
    Advances record b b' [] [] := by
  rcases h with rfl | ⟨i, hi, rfl⟩
  · exact hb.advances_refl
  · exact hb.advances_push_plain hi

theorem InStep.advances_tracker (hb : InStep record b) {t : Tracker} (ht : t.Follows record) :
    Advances record b { b with tracker := t } [] [] :=
  ⟨rfl, Circuit.adds_refl hb.sound _, by rw [List.append_nil]; exact ht⟩

theorem InStep.advances_measurement (hb : InStep record b) {i : Instruction} (hi : i.IsSound)
    (hkind : i.kind.isMeasurement = true) (hresults : i.results = emitted.map Prod.snd)
    {t : Tracker} (ht : b.tracker.recordAll (emitted.map Prod.fst) = .ok t) :
    Advances record b { b with circuit := b.circuit.push i, tracker := t } emitted [] := by
  have hadds := Circuit.adds_push hb.sound hi b.tracker.count
  rw [Instruction.references_of_isMeasurement hi hkind, hresults] at hadds
  exact ⟨rfl, hadds, hb.follows.recordAll ht⟩

theorem InStep.advances_measure (hb : InStep record b) {qubits : List Coord} {basis : Basis}
    {keyOf : Coord → Key} {layer : String}
    (h : Build.Gives (Build.measure qubits basis keyOf layer) b () b') :
    Advances record b b' ((Call.measure qubits basis keyOf layer).emitted b.layout) [] := by
  rw [Call.emitted]
  rcases Build.measure_spec h with ⟨hnone, rfl⟩ | ⟨i, t, hi, ht, rfl⟩
  · rw [hnone]
    exact hb.advances_refl
  · obtain ⟨hsound, hkind, hresults⟩ := Instruction.results_measure hi
    refine hb.advances_measurement hsound hkind ?_ ?_
    · rw [hresults, List.map_map, List.map_map]
      rfl
    · rw [List.map_map]
      exact ht

theorem InStep.advances_measureProduct (hb : InStep record b) {product : PauliProduct} {key : Key}
    {flip : Option Scalar} (h : Build.Gives (Build.measureProduct product key flip) b () b') :
    Advances record b b' ((Call.measureProduct product key flip).emitted b.layout) [] := by
  rw [Call.emitted]
  rcases Build.measureProduct_spec h with ⟨hidentity, t, ht, rfl⟩ | ⟨hidentity, i, t, hi, ht, rfl⟩
  · rw [hidentity]
    exact hb.advances_tracker (hb.follows.recordGroup ht)
  · obtain ⟨hne, hpauli⟩ := Build.factors_spec hidentity b.layout
    obtain ⟨hsound, hkind, hresults⟩ := Instruction.results_product hne hpauli hi
    rw [hidentity]
    refine hb.advances_measurement hsound hkind ?_ (bind_eq_ok.2 ⟨t, ht, rfl⟩)
    rw [hresults, List.filterMap_map]
    exact congrArg (fun qubits => [qubits]) (congrFun List.filterMap_eq_map product.terms)

theorem sort_eq_nil_iff {indices : Finset Nat} : indices.sort = [] ↔ indices = ∅ := by
  constructor
  · intro h
    refine Finset.eq_empty_of_forall_notMem fun index hindex => ?_
    rw [← Finset.mem_sort (· ≤ ·), h] at hindex
    exact List.not_mem_nil hindex
  · rintro rfl
    exact Finset.sort_empty _

theorem InStep.advances_annotated (hb : InStep record b) {g : Gate} (hkind : g.kind = .metadata)
    {keys : List Key} {targets : List Target}
    (htargets : b.tracker.recordTargets keys = .ok targets)
    {args : List Scalar} {i : Instruction} (hi : Instruction.make g.name targets args = .ok i) :
    Advances record b { b with circuit := b.circuit.push i } []
      (Call.reference g (b.tracker.parity keys)) := by
  obtain rfl := Tracker.recordTargets_eq hb.follows.bounded htargets
  obtain ⟨hsound, hresults, hreferences⟩ := Instruction.references_annotated hkind hi
  have hadds := Circuit.adds_push hb.sound hsound b.tracker.count
  have hmeant : i.references.map (RecordEvent.shifted b.tracker.count) =
      Call.reference g (b.tracker.parity keys) := by
    rw [hreferences, Call.reference]
    by_cases hempty : b.tracker.parity keys = ∅
    · simp [hempty]
    · have hne : ¬ (b.tracker.parity keys).sort.map
          (fun (index : Nat) => (index - b.tracker.count : Int)) = [] := by
        rw [List.map_eq_nil_iff, sort_eq_nil_iff]
        exact hempty
      rw [if_neg hempty, if_neg hne, List.map_singleton, Instruction.shifted_reference]
  rw [hresults, hmeant] at hadds
  exact ⟨rfl, hadds, by rw [List.append_nil]; exact hb.follows⟩

theorem InStep.advances_includeObservable (hb : InStep record b) {keys : List Key} {index : Nat}
    (h : Build.Gives (Build.includeObservable keys index) b () b') :
    Advances record b b' [] ((Call.includeObservable keys index).references b) := by
  obtain ⟨targets, htargets, h⟩ := Build.includeObservable_spec h
  rcases h with ⟨rfl, rfl⟩ | ⟨-, i, hi, rfl⟩
  · have hnone := Tracker.recordTargets_eq hb.follows.bounded htargets
    rw [eq_comm, List.map_eq_nil_iff, List.map_eq_nil_iff] at hnone
    rw [Call.references, Call.reference, if_pos (sort_eq_nil_iff.1 hnone)]
    exact hb.advances_refl
  · exact hb.advances_annotated rfl htargets hi

theorem InStep.advances_classicalPaulis (hb : InStep record b) {keys : List Key}
    {qubits : List Coord} {basis : Basis}
    (h : Build.Gives (Build.classicalPaulis keys qubits basis) b () b') :
    Advances record b b' [] ((Call.classicalPaulis keys qubits basis).references b) := by
  obtain ⟨records, hrecords, hchecked, rfl⟩ := Build.classicalPaulis_spec h
  obtain rfl := Tracker.recordTargets_eq hb.follows.bounded hrecords
  have hspec := fun i hi => Instruction.isSound_of_mem_feedback hi (hchecked i hi)
  have hadds := Circuit.adds_foldl_push (fun i hi => (hspec i hi).1) (fun i hi => (hspec i hi).2)
    hb.sound b.tracker.count
  rw [← List.map_flatMap, Instruction.references_feedback hchecked, List.map_flatMap,
    List.flatMap_map] at hadds
  have hmeant : (Call.classicalPaulis keys qubits basis).references b =
      (b.tracker.parity keys).sort.flatMap fun (index : Nat) =>
        (((Coord.sort qubits).map (indexIn b.layout)).map fun q => RecordEvent.reference
          (Gate.controlled .z basis).name [(index - b.tracker.count : Int)] [] [q]).map
            (RecordEvent.shifted b.tracker.count) := by
    rw [Call.references]
    refine List.flatMap_congr fun index _ => ?_
    rw [List.map_map, List.map_map]
    refine List.map_congr_left fun q _ => ?_
    exact (Instruction.shifted_reference _ [index] _ _).symm
  rw [hmeant]
  exact ⟨rfl, hadds, by rw [List.append_nil]; exact hb.follows⟩

theorem isPlain_declaration (index : Nat) (position : Coord) :
    (declaration index position).IsPlain :=
  ⟨.qubitCoords, [index], rfl, rfl, by simp [Instruction.targetFault?, Gate.kind], rfl⟩

/-- Declarations leave a circuit without results and references. -/
theorem adds_declarations (place : Coord → Coord) (indexed : List (Coord × Nat)) {c : Circuit}
    (hc : Circuit.Everywhere Instruction.IsSound c) (seen : Nat) :
    Circuit.Adds seen c
      (indexed.foldl (fun c entry => Circuit.push c (declaration entry.2 (place entry.1))) c)
      [] [] := by
  induction indexed generalizing c with
  | nil => exact Circuit.adds_refl hc seen
  | cons entry indexed ih =>
    have hfirst := Circuit.adds_push_plain hc (isPlain_declaration entry.2 (place entry.1)) seen
    exact hfirst.trans (ih hfirst.sound)

/-- A fresh builder only declares its qubits. -/
theorem adds_forQubits (qubits : List Coord) :
    Circuit.Adds 0 [] (forQubits qubits).circuit [] [] :=
  adds_declarations id _ (Circuit.everywhere_nil _) 0

theorem inStep_forQubits (qubits : List Coord) : InStep [] (forQubits qubits) :=
  ⟨(adds_forQubits qubits).sound, Tracker.follows_empty⟩

end Builder

/-- A call that succeeds adds its results and its references. -/
theorem Call.advances {record : List (Key × List Nat)} {b b' : Builder} (hb : b.InStep record)
    (c : Call) (h : Build.Gives c.run b () b') :
    b.Advances record b' (c.emitted b.layout) (c.references b) := by
  cases c with
  | gate name qubits args => exact hb.advances_appendsPlain (Build.gate_spec h)
  | gate2 name pairs => exact hb.advances_appendsPlain (Build.gate2_spec h)
  | tick =>
    obtain rfl := Build.gives_modify.1 h
    exact hb.advances_push_plain Instruction.isPlain_tick
  | shiftCoords offset time =>
    obtain rfl := Build.gives_modify.1 h
    refine hb.advances_push_plain ⟨.shiftCoords, [], rfl, rfl, ?_, rfl⟩
    simp [Instruction.targetFault?, Gate.kind]
  | measure qubits basis keyOf layer => exact hb.advances_measure h
  | measureProduct product key flip => exact hb.advances_measureProduct h
  | detector keys options =>
    obtain ⟨targets, args, i, htargets, -, hi, rfl⟩ := Build.detector_spec h
    exact hb.advances_annotated rfl htargets hi
  | includeObservable keys index => exact hb.advances_includeObservable h
  | classicalPaulis keys qubits basis => exact hb.advances_classicalPaulis h
  | group parts key =>
    rw [Call.run] at h
    obtain ⟨t, ht, rfl⟩ := Build.gives_updateTracker.1 h
    exact hb.advances_tracker (hb.follows.recordGroup ht)
  | obstacle key =>
    rw [Call.run] at h
    obtain ⟨t, ht, rfl⟩ := Build.gives_updateTracker.1 h
    exact hb.advances_tracker (hb.follows.recordObstacle ht)

namespace Step

theorem gives_of_after {b b' : Builder} {calls : Build Unit} (h : after b calls = .ok b') :
    Build.Gives calls b () b' := by
  obtain ⟨_, hresult, rfl⟩ := map_eq_ok.1 h
  exact Prod.ext hresult rfl

/-- A body that ran on a fork advances the builder when it is spliced in, repeated. -/
theorem advances_loop {record emitted : List (Key × List Nat)} {refs : List RecordEvent}
    {b child b' : Builder} {count : ℕ+} (hb : b.InStep record)
    (hbody : b.fork.Advances record child emitted refs)
    (h : after { b with tracker := child.tracker }
      (Build.appendRepeated child.circuit count) = .ok b') :
    b.Advances record b' (List.replicate count emitted).flatten refs := by
  obtain ⟨t, ht, rfl⟩ := Build.appendRepeated_spec (gives_of_after h)
  obtain ⟨more, hmore⟩ := Nat.exists_eq_add_of_le' count.pos
  have hlength : Circuit.measurementCount child.circuit = emitted.length := by
    rw [hbody.circuit.measurementCount, List.length_map]
    exact Nat.zero_add _
  rw [hlength, hmore] at ht
  -- The fork began with an empty circuit when the results of the builder had been seen.
  have hadds := Circuit.adds_pushRepeat hb.sound hbody.circuit more
  have hmap : ((List.replicate (more + 1) emitted).flatten.map Prod.snd) =
      (List.replicate (more + 1) (emitted.map Prod.snd)).flatten := by
    rw [List.map_flatten, List.map_replicate]
  rw [hmore]
  refine ⟨rfl, ?_, hbody.follows.repeatRecent ht⟩
  rw [hmap]
  exact hadds

mutual

/-- A step that succeeds adds its results and its references. -/
theorem run_advances {record : List (Key × List Nat)} {b b' : Builder} (hb : b.InStep record) :
    (step : Step) → run b step = .ok b' →
      b.Advances record b' (emitted b.layout step) (references b step)
  | call c, h => by
    rw [run] at h
    rw [emitted, references]
    exact Call.advances hb c (gives_of_after h)
  | loop count body, h => by
    rw [run] at h
    obtain ⟨child, hchild, h⟩ := bind_eq_ok.1 h
    rw [emitted, references]
    exact advances_loop hb (runAll_advances hb.fork body hchild) h

/-- Steps that succeed add their results and their references. -/
theorem runAll_advances {record : List (Key × List Nat)} {b b' : Builder} (hb : b.InStep record) :
    (steps : List Step) → runAll b steps = .ok b' →
      b.Advances record b' (emittedAll b.layout steps) (referencesAll b steps)
  | [], h => by
    rw [runAll] at h
    cases h
    exact hb.advances_refl
  | step :: rest, h => by
    rw [runAll] at h
    obtain ⟨next, hnext, h⟩ := bind_eq_ok.1 h
    have hstep := run_advances hb step hnext
    have hrest := runAll_advances hstep.inStep rest h
    rw [hstep.layout] at hrest
    rw [emittedAll, referencesAll, hnext]
    exact hb.advances_trans hstep hrest

end

end Step

end StabCircuit
