import StabCircuit.Proofs.Memory.Experiments

/-!
# Detectors of memory experiments

The record of a memory experiment, references resolved to the numbers of the results
they mean: the detector of a tile refers to its results in two consecutive rounds,
and an observable is included by its first and by its last measurement.
-/

namespace StabCircuit

namespace RecordEvent

/-! ## Resolved events -/

theorem resolved_append (seen : Nat) (xs ys : List RecordEvent) :
    resolved seen (xs ++ ys) =
      resolved seen xs ++ resolved (seen + (xs.filterMap measured?).length) ys := by
  induction xs generalizing seen with
  | nil => rfl
  | cons event xs ih =>
    rw [List.cons_append, resolved, resolved, ih, List.cons_append]
    cases event with
    | result qubits =>
      simp [isResult, measured?, Nat.add_assoc, Nat.add_comm 1]
    | annotated name args indices => rfl
    | reference name indices sweeps qubits => rfl

theorem filterMap_measured?_resolved (seen : Nat) (xs : List RecordEvent) :
    (resolved seen xs).filterMap measured? = xs.filterMap measured? := by
  induction xs generalizing seen with
  | nil => rfl
  | cons event xs ih =>
    rw [resolved, List.filterMap_cons, List.filterMap_cons, ih]
    cases event <;> rfl

/-- Every repetition is resolved when the results of those before it have been seen. -/
theorem resolved_replicate (count seen : Nat) (block : List RecordEvent) :
    resolved seen (List.replicate count block).flatten =
      (List.range count).flatMap fun r =>
        resolved (seen + r * (block.filterMap measured?).length) block := by
  induction count with
  | zero => rfl
  | succ count ih =>
    have hlength : ((List.replicate count block).flatten.filterMap measured?).length =
        count * (block.filterMap measured?).length := by
      rw [List.filterMap_flatten, List.map_replicate]
      simp
    rw [List.replicate_succ', List.flatten_append, List.flatten_singleton, resolved_append, ih,
      hlength, List.range_succ, List.flatMap_append, List.flatMap_singleton]

/-- The annotations by a gate among events, resolved when `seen` results came before. -/
def annotations (g : Gate) (seen : Nat) (xs : List RecordEvent) : List (List Scalar × List Int) :=
  (resolved seen xs).filterMap (annotation? g)

theorem annotations_append (g : Gate) (seen : Nat) (xs ys : List RecordEvent) :
    annotations g seen (xs ++ ys) =
      annotations g seen xs ++ annotations g (seen + (xs.filterMap measured?).length) ys := by
  rw [annotations, resolved_append, List.filterMap_append]
  rfl

theorem annotations_replicate (g : Gate) (count seen : Nat) (block : List RecordEvent) :
    annotations g seen (List.replicate count block).flatten =
      (List.range count).flatMap fun r =>
        annotations g (seen + r * (block.filterMap measured?).length) block := by
  rw [annotations, resolved_replicate, List.filterMap_flatMap]
  rfl

theorem annotations_results (g : Gate) (seen : Nat) (results : List (List Nat)) :
    annotations g seen (results.map result) = [] := by
  induction results generalizing seen with
  | nil => rfl
  | cons qubits results ih => exact ih (seen + 1)

theorem annotations_annotation (g h : Gate) (seen : Nat) (args : List Scalar)
    (offsets : List Int) :
    annotations g seen (Instruction.annotation h args offsets) =
      if h = g then [(args, offsets.map ((seen : Int) + ·))] else [] := by
  have hreference : ∀ count, annotations g count
      (if offsets = [] then [] else [.reference h.name offsets [] []]) = [] := by
    intro count
    split <;> rfl
  have hnames : h.name = g.name ↔ h = g := ⟨Gate.name_injective, congrArg Gate.name⟩
  rw [Instruction.annotation, ← List.singleton_append, annotations_append, hreference,
    List.append_nil]
  by_cases hsame : h = g
  · simp [annotations, resolved, shifted, annotation?, hsame]
  · simp [annotations, resolved, shifted, annotation?, hnames, hsame]

/-- Annotations one after another, with no results between them. -/
theorem annotations_flatMap {α : Type} (g h : Gate) (seen : Nat) (args : α → List Scalar)
    (offsets : α → List Int) (xs : List α) :
    annotations g seen (xs.flatMap fun x => Instruction.annotation h (args x) (offsets x)) =
      if h = g then xs.map fun x => (args x, (offsets x).map ((seen : Int) + ·)) else [] := by
  induction xs with
  | nil => split <;> rfl
  | cons x xs ih =>
    rw [List.flatMap_cons, annotations_append, MemoryExperiment.filterMap_annotation,
      List.length_nil, Nat.add_zero, ih, annotations_annotation]
    by_cases hsame : h = g
    · simp [hsame]
    · simp [hsame]

end RecordEvent

namespace MemoryExperiment

open RecordEvent

variable {e : MemoryExperiment} {observables : List PauliProduct}

/-! ## Events of observables and rounds -/

/-- The numbered observables that have a result. -/
def observed (observables : List PauliProduct) : List (PauliProduct × Nat) :=
  observables.zipIdx.filter fun entry => !entry.1.isIdentity

/-- The qubits measured for the results of observables. -/
def observedResults (layout : OrderedMap Coord Nat) (observables : List PauliProduct) :
    List (List Nat) :=
  (observed observables).map fun entry => entry.1.terms.map fun term => indexIn layout term.1

/-- The inclusions of observables whose results begin at `first`. -/
def inclusions (observables : List PauliProduct) (first : Nat) : List (List Scalar × List Int) :=
  ((observed observables).zipIdx first).map fun entry =>
    ([Scalar.ofNat entry.1.2], [Int.ofNat entry.2])

theorem filterMap_observableEvents (layout : OrderedMap Coord Nat)
    (entries : List (PauliProduct × Nat)) :
    (entries.flatMap (observableEvents layout)).filterMap measured? =
      (entries.filter fun entry => !entry.1.isIdentity).map fun entry =>
        entry.1.terms.map fun term => indexIn layout term.1 := by
  induction entries with
  | nil => rfl
  | cons entry entries ih =>
    rw [List.flatMap_cons, List.filterMap_append, ih, observableEvents]
    cases hidentity : entry.1.isIdentity with
    | true => simp [hidentity]
    | false => simp [hidentity, measured?, filterMap_annotation]

theorem annotations_observableEvents_detector (layout : OrderedMap Coord Nat)
    (entries : List (PauliProduct × Nat)) (seen : Nat) :
    annotations .detector seen (entries.flatMap (observableEvents layout)) = [] := by
  induction entries generalizing seen with
  | nil => rfl
  | cons entry entries ih =>
    rw [List.flatMap_cons, annotations_append, ih, observableEvents, List.append_nil]
    split
    · rfl
    · rw [← List.singleton_append, annotations_append, annotations_annotation]
      rfl

/-- An observable is included by the result that its measurement has just had. -/
theorem annotations_observableEvents (layout : OrderedMap Coord Nat)
    (entries : List (PauliProduct × Nat)) (seen : Nat) :
    annotations .observableInclude seen (entries.flatMap (observableEvents layout)) =
      ((entries.filter fun entry => !entry.1.isIdentity).zipIdx seen).map fun entry =>
        ([Scalar.ofNat entry.1.2], [Int.ofNat entry.2]) := by
  induction entries generalizing seen with
  | nil => rfl
  | cons entry entries ih =>
    rw [List.flatMap_cons, annotations_append, ih, observableEvents]
    cases hidentity : entry.1.isIdentity with
    | true => simp [hidentity, annotations, resolved]
    | false =>
      have hone : annotations .observableInclude seen
          (.result (entry.1.terms.map fun term => indexIn layout term.1) ::
            Instruction.annotation .observableInclude [Scalar.ofNat entry.2] [-1]) =
              [([Scalar.ofNat entry.2], [Int.ofNat seen])] := by
        rw [← List.singleton_append, annotations_append, annotations_annotation, if_pos rfl]
        simp [annotations, resolved, shifted, annotation?, measured?]
      simp [hidentity, hone, measured?, filterMap_annotation]

/-- Counted from the end of a round, the targets of a detector are the results of its tile in this
round and in the one before. -/
theorem map_roundOffsets (first : Nat) (t : Tile) :
    (e.roundOffsets t).map
        (((first + e.roundOrder.length + e.roundOrder.length : Nat) : Int) + ·) =
      (e.resultOf first t ++ e.resultOf (first + e.roundOrder.length) t).map Int.ofNat := by
  unfold roundOffsets resultOf
  split
  · simp only [List.map_cons, List.map_nil, List.cons_append, List.nil_append, List.cons.injEq,
      and_true, Int.ofNat_eq_natCast]
    omega
  · rfl

theorem annotations_comparedRound (layout : OrderedMap Coord Nat) (first : Nat) :
    annotations .detector (first + e.roundOrder.length) (e.comparedRound layout) =
      e.patch.tiles.map fun t => (detectorArgs t,
        (e.resultOf first t ++ e.resultOf (first + e.roundOrder.length) t).map Int.ofNat) := by
  rw [comparedRound, annotations_append, annotations_results, List.nil_append, filterMap_result,
    length_roundResults, roundDetectors, annotations_flatMap, if_pos rfl]
  apply List.map_congr_left
  intro t _
  rw [map_roundOffsets]

theorem annotations_comparedRound_observables (layout : OrderedMap Coord Nat) (seen : Nat) :
    annotations .observableInclude seen (e.comparedRound layout) = [] := by
  rw [comparedRound, annotations_append, annotations_results, List.nil_append, roundDetectors,
    annotations_flatMap]
  rfl

theorem annotations_rounds_observables (layout : OrderedMap Coord Nat) (count seen : Nat) :
    annotations .observableInclude seen
      (List.replicate count (e.comparedRound layout)).flatten = [] := by
  rw [annotations_replicate, List.flatMap_eq_nil_iff]
  intro r _
  exact annotations_comparedRound_observables layout _

/-! ## Experiments -/

/-- The rounds of a circuit, numbered from zero up to `last`, measure the tiles in the same order.
In every round but the first each tile has one detector, over its results in the round before and
in this round.  Each observable is included by its measurements before and after the rounds. -/
structure ComparesRounds (e : MemoryExperiment) (observables : List PauliProduct) (last : Nat)
    (c : Circuit) : Prop where
  distinct : (e.patch.tiles.map Tile.measurementQubit).Nodup
  results : (c.recordTrace false).filterMap measured? =
    observedResults (e.layoutFor observables) observables ++
      (List.replicate (last + 1) (e.roundResults (e.layoutFor observables))).flatten ++
      observedResults (e.layoutFor observables) observables
  detectors : (c.recordTrace false).filterMap (annotation? .detector) =
    (List.range last).flatMap fun r => e.patch.tiles.map fun t =>
      (detectorArgs t,
        (e.resultOf ((observed observables).length + r * e.roundOrder.length) t ++
          e.resultOf ((observed observables).length + (r + 1) * e.roundOrder.length) t).map
            Int.ofNat)
  included : (c.recordTrace false).filterMap (annotation? .observableInclude) =
    inclusions observables 0 ++
      inclusions observables ((observed observables).length + (last + 1) * e.roundOrder.length)

theorem filterMap_rounds (layout : OrderedMap Coord Nat) (count : Nat) :
    (List.replicate count (e.comparedRound layout)).flatten.filterMap measured? =
      (List.replicate count (e.roundResults layout)).flatten := by
  rw [List.filterMap_flatten, List.map_replicate, filterMap_comparedRound]

/-- What the events of an experiment resolve to. -/
theorem comparesRounds_of_events {c : Circuit} {last : Nat}
    (hnodup : (e.patch.tiles.map Tile.measurementQubit).Nodup)
    (h : Circuit.unrolled (Instruction.events false) c = e.experimentEvents observables last) :
    e.ComparesRounds observables last c := by
  have hobserved := filterMap_observableEvents (e.layoutFor observables) observables.zipIdx
  have hfirst : ((observables.zipIdx.flatMap (observableEvents (e.layoutFor observables))).filterMap
      measured?).length = (observed observables).length := by
    rw [hobserved, List.length_map]
    rfl
  have hannotations : ∀ g, (c.recordTrace false).filterMap (annotation? g) =
      annotations g 0 (e.experimentEvents observables last) := by
    intro g
    rw [Circuit.recordTrace, h]
    rfl
  constructor
  · exact hnodup
  · rw [Circuit.recordTrace, filterMap_measured?_resolved, h, experimentEvents,
      List.filterMap_append, List.filterMap_append, List.filterMap_append, hobserved,
      filterMap_result, filterMap_rounds, List.replicate_succ, List.flatten_cons]
    simp only [List.append_assoc]
    rfl
  · rw [hannotations, experimentEvents, annotations_append, annotations_append, annotations_append,
      annotations_observableEvents_detector, annotations_observableEvents_detector,
      annotations_results, List.nil_append, List.nil_append, List.append_nil,
      annotations_replicate, filterMap_comparedRound, length_roundResults, List.filterMap_append,
      List.length_append, hfirst, filterMap_result, length_roundResults]
    apply List.flatMap_congr
    intro r _
    have hround := @annotations_comparedRound e (e.layoutFor observables)
      ((observed observables).length + r * e.roundOrder.length)
    rw [Nat.add_assoc, ← Nat.succ_mul] at hround
    rw [← hround]
    congr 1
    rw [Nat.succ_mul]
    omega
  · rw [hannotations, experimentEvents, annotations_append, annotations_append, annotations_append,
      annotations_observableEvents, annotations_observableEvents, annotations_results,
      List.append_nil, annotations_rounds_observables, List.append_nil, List.filterMap_append,
      List.filterMap_append, filterMap_rounds, filterMap_result, List.length_append,
      List.length_append, hfirst, length_roundResults]
    have hrounds : (List.replicate last (e.roundResults (e.layoutFor observables))).flatten.length =
        last * e.roundOrder.length := by
      rw [← length_roundResults e (e.layoutFor observables)]
      simp
    have hlast : 0 + ((observed observables).length + e.roundOrder.length +
        last * e.roundOrder.length) =
          (observed observables).length + (last + 1) * e.roundOrder.length := by
      rw [Nat.succ_mul]
      omega
    rw [hrounds, hlast]
    rfl

/-- Memory experiments compare consecutive rounds.  With noise in every round there are the noisy
rounds between a first and a last one; with noise in between there are the first and the last. -/
theorem comparesRounds (e : MemoryExperiment) :
    (∀ c, e.phenomenological = .ok c → ∃ paired,
      PairedObservables.pair e.patch e.observablesX e.observablesZ e.ancillas = .ok paired ∧
        e.ComparesRounds paired.observables (e.rounds + 1) c) ∧
    ∀ c, e.codeCapacity = .ok c → ∃ paired,
      PairedObservables.pair e.patch e.observablesX e.observablesZ e.ancillas = .ok paired ∧
        e.ComparesRounds paired.observables 1 c := by
  constructor
  · intro c h
    obtain ⟨paired, hpaired, hnodup, hevents⟩ := events_phenomenological h
    exact ⟨paired, hpaired, comparesRounds_of_events hnodup hevents⟩
  · intro c h
    obtain ⟨paired, hpaired, hnodup, hevents⟩ := events_codeCapacity h
    exact ⟨paired, hpaired, comparesRounds_of_events hnodup hevents⟩

/-- Two checks of a chain of qubits, and one of nothing, for an X and a Z observable. -/
def chainMemory : MemoryExperiment where
  patch := ⟨[⟨⟨1, 0⟩, [⟨.z, some ⟨0, 0⟩⟩, ⟨.z, some ⟨2, 0⟩⟩]⟩, ⟨⟨3, 0⟩, []⟩,
    ⟨⟨5, 0⟩, [⟨.z, some ⟨2, 0⟩⟩, ⟨.z, some ⟨4, 0⟩⟩]⟩]⟩
  noise := (NoiseRule.following (.pauliError .x) (1 / 100)).flipping (1 / 50)
  observablesX := [.ofTerms [(⟨0, 0⟩, .x), (⟨2, 0⟩, .x), (⟨4, 0⟩, .x)]]
  observablesZ := [.ofTerms [(⟨0, 0⟩, .z)]]
  rounds := 3

/-- A check of one qubit through its measurement qubit. -/
def singleMemory : MemoryExperiment where
  patch := ⟨[⟨⟨1, 0⟩, [⟨.z, some ⟨0, 0⟩⟩]⟩]⟩
  noise := NoiseRule.following (.pauliError .x) (1 / 100)
  observablesZ := [.ofTerms [(⟨0, 0⟩, .z)]]
  style := .ancilla

theorem comparesRounds_chainMemory :
    (∃ (c : Circuit) (paired : PairedObservables), chainMemory.phenomenological = .ok c ∧
      chainMemory.ComparesRounds paired.observables 4 c) ∧
    ∃ (c : Circuit) (paired : PairedObservables), singleMemory.codeCapacity = .ok c ∧
      singleMemory.ComparesRounds paired.observables 1 c := by
  have hchain : chainMemory.phenomenological.isOk = true := by decide +kernel
  have hsingle : singleMemory.codeCapacity.isOk = true := by decide +kernel
  constructor
  · cases hc : chainMemory.phenomenological with
    | error _ => simp [hc, Except.isOk, Except.toBool] at hchain
    | ok c =>
      obtain ⟨paired, -, hcompares⟩ := (comparesRounds chainMemory).1 c hc
      exact ⟨c, paired, rfl, hcompares⟩
  · cases hc : singleMemory.codeCapacity with
    | error _ => simp [hc, Except.isOk, Except.toBool] at hsingle
    | ok c =>
      obtain ⟨paired, -, hcompares⟩ := (comparesRounds singleMemory).2 c hc
      exact ⟨c, paired, rfl, hcompares⟩

end MemoryExperiment

end StabCircuit
