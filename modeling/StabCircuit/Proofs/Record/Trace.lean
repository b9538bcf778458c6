import StabCircuit.Proofs.Layer.Readings
import StabCircuit.Proofs.Layer.Soundness
import StabCircuit.Proofs.Noise.Injection

/-!
# The trace of the measurement record

The record trace of a circuit lists its results, its detectors and observables, and
its classically controlled pieces in the order in which they happen, with every
reference resolved to the number of the result it means.  Layers have a trace of
their own; reading circuits and layers this way agrees with splitting, fusing,
writing and noise injection.
-/

namespace StabCircuit

/-- What happens to the measurement record. -/
inductive RecordEvent where
  /-- A result of measuring qubits. -/
  | result (qubits : List Nat)
  /-- A detector or observable over results. -/
  | annotated (name : String) (args : List Scalar) (indices : List Int)
  /-- A piece of an instruction that refers to results or sweep bits. -/
  | reference (name : String) (indices : List Int) (sweeps qubits : List Nat)
deriving DecidableEq

namespace RecordEvent

/-- The event with its indices counted from another result. -/
def shifted (offset : Int) : RecordEvent → RecordEvent
  | result qubits => result qubits
  | annotated name args indices => annotated name args (indices.map (offset + ·))
  | reference name indices sweeps qubits =>
    reference name (indices.map (offset + ·)) sweeps qubits

/-- Whether the event is a result. -/
def isResult : RecordEvent → Bool
  | result _ => true
  | _ => false

/-- Events with indices relative to the results before them, resolved to absolute indices when
`seen` results came before. -/
def resolved (seen : Nat) : List RecordEvent → List RecordEvent
  | [] => []
  | e :: rest => e.shifted seen :: resolved (if e.isResult then seen + 1 else seen) rest

end RecordEvent

/-- The offset of a record target. -/
def Target.offset? : Target → Option Int
  | record offset => some offset
  | _ => none

/-- The number of a sweep bit. -/
def Target.sweep? : Target → Option Nat
  | sweep bit => some bit
  | _ => none

namespace Instruction

/-- Whether the instruction is a detector or adds to an observable. -/
def isAnnotated (i : Instruction) : Bool :=
  i.gate? == some .detector || i.gate? == some .observableInclude

/-- Whether the instruction declares or shifts coordinates. -/
def isCoordinate (i : Instruction) : Bool :=
  i.gate? == some .qubitCoords || i.gate? == some .shiftCoords

/-- The reference that a piece of an instruction makes, if it has a classical target. -/
def pieceReference (i : Instruction) (group : List Target) : List RecordEvent :=
  if group.any Target.isClassical then
    [.reference i.name (group.filterMap Target.offset?) (group.filterMap Target.sweep?)
      (group.filterMap Target.qubit?)]
  else []

/-- The events of a piece of an instruction: its reference and its result. -/
def pieceEvents (i : Instruction) (group : List Target) : List RecordEvent :=
  i.pieceReference group ++
    if i.kind.isMeasurement then [.result (group.filterMap Target.qubit?)] else []

/-- The events of an instruction, indices relative to the results before each; `coordinates` tells
whether the targets of coordinates count as references. -/
def events (coordinates : Bool) (i : Instruction) : List RecordEvent :=
  (if i.isAnnotated then [.annotated i.name i.args (i.targets.filterMap Target.offset?)] else []) ++
  if i.isCoordinate && !coordinates then [] else i.targetGroups.flatMap i.pieceEvents

end Instruction

/-- The record trace of a circuit, repeat blocks unrolled and references resolved. -/
def Circuit.recordTrace (coordinates : Bool) (c : Circuit) : List RecordEvent :=
  RecordEvent.resolved 0 (unrolled (Instruction.events coordinates) c)

/-- The events of a layer that is no loop. -/
def Layer.events : Layer → List RecordEvent
  | measure targets => targets.map fun t => .result [t.qubit]
  | product products => products.map fun p => .result (p.factors.map Prod.fst)
  | annotations instructions | feedback instructions | noise instructions =>
    instructions.flatMap (Instruction.events false)
  | _ => []

/-- The reading of circuits and layers as events. -/
def eventReading : Reading RecordEvent where
  instruction := Instruction.events false
  plain := Layer.events
  Same := Eq

namespace Instruction

/-- The events of an instruction that is neither annotation nor coordinates are those of its
pieces. -/
theorem events_of_isMetadata_eq_false {i : Instruction} (h : i.kind.isMetadata = false) :
    i.events false = i.targetGroups.flatMap i.pieceEvents := by
  have hgate : ∀ g : Gate, g.kind.isMetadata = true → i.gate? ≠ some g := by
    intro g hg hsome
    rw [kind_of_gate? hsome, hg] at h
    cases h
  have hannotated : i.isAnnotated = false := by
    simp [isAnnotated, hgate .detector rfl, hgate .observableInclude rfl]
  have hcoordinate : i.isCoordinate = false := by
    simp [isCoordinate, hgate .qubitCoords rfl, hgate .shiftCoords rfl]
  simp [events, hannotated, hcoordinate]

theorem events_of_isCoordinate {i : Instruction}
    (h : i.gate? = some .qubitCoords ∨ i.gate? = some .shiftCoords) : i.events false = [] := by
  rcases h with h | h <;> simp [events, isAnnotated, isCoordinate, h]

theorem pieceReference_of_isClassical_eq_false {i : Instruction} {group : List Target}
    (h : ∀ t ∈ group, t.isClassical = false) : i.pieceReference group = [] := by
  have hany : group.any Target.isClassical = false := by
    simpa [List.any_eq_false] using h
  simp [pieceReference, hany]

theorem pieceEvents_of_isClassical_eq_false {i : Instruction} {group : List Target}
    (h : ∀ t ∈ group, t.isClassical = false) :
    i.pieceEvents group =
      if i.kind.isMeasurement then [.result (group.filterMap Target.qubit?)] else [] := by
  rw [pieceEvents, pieceReference_of_isClassical_eq_false h, List.nil_append]

/-- A plain instruction has no events. -/
theorem events_of_isPlain {i : Instruction} (h : i.IsPlain) : i.events false = [] := by
  obtain ⟨g, qubits, hname, htargets, -, hsilent⟩ := h
  have hgate := gate?_of_name hname
  simp only [Gate.isSilent, Bool.and_eq_true, Bool.not_eq_true', bne_iff_ne] at hsilent
  obtain ⟨⟨hmeasurement, hdetector⟩, hobservable⟩ := hsilent
  have hannotated : i.isAnnotated = false := by simp [isAnnotated, hgate, hdetector, hobservable]
  have hpieces : i.targetGroups.flatMap i.pieceEvents = [] := by
    refine List.flatMap_eq_nil_iff.2 fun group hgroup => ?_
    rw [pieceEvents_of_isClassical_eq_false, kind_of_gate? hgate, hmeasurement]
    · rfl
    · intro t ht
      have ht' := mem_of_mem_targetGroups hgroup t ht
      rw [htargets] at ht'
      obtain ⟨q, -, rfl⟩ := List.mem_map.1 ht'
      rfl
  simp [events, hannotated, hpieces]

theorem events_tick {i : Instruction} (hi : i.IsChecked) (h : i.gate? = some .tick) :
    i.events false = [] := by
  obtain ⟨g, hname, hgate, -, hfault⟩ := hi.exists_gate
  obtain rfl : g = .tick := Option.some.inj (hgate.symm.trans h)
  have hnone : i.targets = [] := by
    simpa [targetFault?, Gate.kind] using hfault
  exact events_of_isPlain ⟨.tick, [], hname, hnone, hfault, rfl⟩

theorem additive_events : Circuit.Additive (events false) := by
  intro last next hlast hnext hfuses
  obtain ⟨g, hfusable, hname, hname', -⟩ := exists_gate_of_fuses hlast hnext hfuses
  have hkind : last.kind = g.kind := kind_of_gate? (gate?_of_name hname)
  have hkind' : next.kind = g.kind := kind_of_gate? (gate?_of_name hname')
  have hmetadata : g.kind.isMetadata = false := by
    revert hfusable
    cases g <;> simp [Gate.isFusable, Gate.kind] <;> rfl
  have hpieces : next.pieceEvents = last.pieceEvents := by
    funext group
    simp [pieceEvents, pieceReference, hname, hname', hkind, hkind']
  rw [events_of_isMetadata_eq_false (by rw [kind_join, hkind, hmetadata]),
    events_of_isMetadata_eq_false (by rw [hkind, hmetadata]),
    events_of_isMetadata_eq_false (by rw [hkind', hmetadata]),
    targetGroups_join hlast hnext hfuses, List.flatMap_append, hpieces]
  rfl

end Instruction

/-! ## Splitting and writing -/

namespace LayerCircuit

open Instruction

variable {i : Instruction}

theorem events_of_quiet (hplain : i.isClassicallyControlled = false)
    (hmetadata : i.kind.isMetadata = false) (hmeasurement : i.kind.isMeasurement = false) :
    i.events false = [] := by
  have hne : i.kind ≠ .metadata := by
    intro hkind
    simp [hkind, GateKind.isMetadata] at hmetadata
  have hclassical := isClassical_eq_false hplain hne
  rw [events_of_isMetadata_eq_false hmetadata]
  refine List.flatMap_eq_nil_iff.2 fun group hgroup => ?_
  rw [pieceEvents_of_isClassical_eq_false fun t ht =>
    hclassical t (mem_of_mem_targetGroups hgroup t ht), hmeasurement]
  rfl

theorem events_measureLayers {b : Basis} (hi : i.IsSound)
    (hkind : i.kind = .measure ∨ i.kind = .measureReset)
    (hplain : i.isClassicallyControlled = false) :
    (measureLayers i b).flatMap Layer.events = i.events false := by
  have hne : i.kind ≠ .metadata := by rcases hkind with h | h <;> simp [h]
  have hclassical := isClassical_eq_false hplain hne
  have hsingle : i.kind.isSingle = true := by rcases hkind with h | h <;> rw [h] <;> rfl
  have hmetadata : i.kind.isMetadata = false := by rcases hkind with h | h <;> rw [h] <;> rfl
  have hmeasurement : i.kind.isMeasurement = true := by
    rcases hkind with h | h <;> rw [h] <;> rfl
  rw [events_of_isMetadata_eq_false hmetadata, targetGroups_of_isSingle hsingle, measureLayers,
    List.flatMap_map, List.flatMap_map, Instruction.qubits]
  refine flatMap_qubits fun t ht => ?_
  obtain ⟨q, hq⟩ := Option.isSome_iff_exists.1 (hi.2 hkind t ht)
  rw [pieceEvents_of_isClassical_eq_false (List.forall_mem_singleton.2 (hclassical t ht)),
    hmeasurement]
  simp [hq, Layer.events]

theorem map_fst_factorsOf {group : List Target} (h : ∀ t ∈ group, t.isPauli = true) :
    (factorsOf group).map Prod.fst = group.filterMap Target.qubit? := by
  rw [factorsOf, List.map_filterMap]
  refine List.filterMap_congr fun t ht => ?_
  have hpauli := h t ht
  cases t <;> simp [Target.isPauli] at hpauli
  rfl

theorem events_productLayers (hi : i.IsSound) (hg : i.gate? = some .measureProduct) :
    ((Target.productGroups i.targets).map fun group =>
      Layer.product [⟨factorsOf group, i.args⟩]).flatMap Layer.events = i.events false := by
  have hkind : i.kind = .measureProduct := kind_of_gate? hg
  obtain ⟨g, -, hg', -, hfault⟩ := hi.1.exists_gate
  obtain rfl : g = .measureProduct := Option.some.inj (hg'.symm.trans hg)
  have hall := ((targetFault?_product_iff (.inl rfl)).1 hfault).2.2
  rw [events_of_isMetadata_eq_false (by rw [hkind]; rfl),
    targetGroups_of_isProduct (by rw [hkind]; rfl), List.flatMap_map]
  refine List.flatMap_congr fun group hgroup => ?_
  have hpauli : ∀ t ∈ group, t.isPauli = true := by
    intro t ht
    obtain ⟨ht, hcombiner⟩ := (Target.mem_productGroups hgroup).2 t ht
    exact (hall t ht).resolve_right (by simp [hcombiner])
  rw [pieceEvents_of_isClassical_eq_false, hkind]
  · simp [Layer.events, GateKind.isMeasurement, map_fst_factorsOf hpauli]
  · intro t ht
    have hpauli' := hpauli t ht
    cases t <;> simp [Target.isPauli] at hpauli'
    rfl

/-- The layers that a sound instruction yields have the events of the instruction. -/
theorem events_of_yields {more : List Layer} (hi : i.IsSound) (h : Yields i more) :
    more.flatMap Layer.events = i.events false := by
  have hmap : ∀ {α : Type} (f : α → Layer) (xs : List α), (∀ x, (f x).events = []) →
      (xs.map f).flatMap Layer.events = [] := by
    intro α f xs hf
    rw [List.flatMap_map]
    exact List.flatMap_eq_nil_iff.2 fun x _ => hf x
  cases h with
  | feedback => simp [Layer.events]
  | tick hg => simpa [Layer.events] using (events_tick hi.1 hg).symm
  | coords hg => rw [events_of_isCoordinate (.inl hg), hmap _ _ fun _ => rfl]
  | shift hg => simp [Layer.events, events_of_isCoordinate (.inr hg)]
  | annotated => simp [Layer.events]
  | rotation r hg hplain =>
    have hkind : i.kind = .clifford1 := kind_of_gate? hg
    rw [hmap _ _ fun _ => rfl, events_of_quiet hplain (by rw [hkind]; rfl) (by rw [hkind]; rfl)]
  | reset b hg hplain =>
    have hkind : i.kind = .reset := kind_of_gate? hg
    rw [resetLayers, hmap _ _ fun _ => rfl,
      events_of_quiet hplain (by rw [hkind]; rfl) (by rw [hkind]; rfl)]
  | measure b hg hplain => exact events_measureLayers hi (.inl (kind_of_gate? hg)) hplain
  | measureReset b hg hplain =>
    rw [List.flatMap_append, events_measureLayers hi (.inr (kind_of_gate? hg)) hplain, resetLayers,
      hmap _ _ fun _ => rfl, List.append_nil]
  | product hg => exact events_productLayers hi hg
  | noise => simp [Layer.events]
  | pairs g _ hg hkind hplain hmore =>
    have hkind' : i.kind = .clifford2 := (kind_of_gate? hg).trans hkind
    rw [events_of_quiet hplain (by rw [hkind']; rfl) (by rw [hkind']; rfl)]
    generalize Target.pairs i.targets = groups at hmore
    induction hmore with
    | nil => rfl
    | cons hl _ ih =>
      rw [List.flatMap_cons, ih, List.append_nil]
      cases hl with
      | pair _ _ h => cases h <;> rfl

end LayerCircuit

namespace Layer

open Instruction

theorem events_onQubits_measure (t : MeasureTarget) :
    (onQubits (.measure t.basis) [t.qubit] t.args).events false = [.result [t.qubit]] := by
  have hkind : (onQubits (.measure t.basis) [t.qubit] t.args).kind = .measure :=
    kind_of_gate? (@gate?_of_name _ (.measure t.basis) rfl)
  have htargets : (onQubits (.measure t.basis) [t.qubit] t.args).targets = [.qubit t.qubit] := rfl
  rw [events_of_isMetadata_eq_false (by rw [hkind]; rfl),
    targetGroups_of_isSingle (by rw [hkind]; rfl), htargets, List.map_singleton,
    List.flatMap_singleton, pieceEvents_of_isClassical_eq_false (by simp [Target.isClassical,
      Target.isRecord, Target.isSweep]), hkind]
  rfl

theorem events_productInstruction {p : MeasuredProduct} (hp : p.factors ≠ []) :
    (productInstruction p).events false = [.result (p.factors.map Prod.fst)] := by
  have hkind : (productInstruction p).kind = .measureProduct :=
    kind_of_gate? (@gate?_of_name _ .measureProduct rfl)
  have hcombiner : ∀ t ∈ factorTargets p.factors, t.isCombiner = false := by
    intro t ht
    obtain ⟨factor, -, rfl⟩ := List.mem_map.1 ht
    rfl
  have hclassical : ∀ t ∈ factorTargets p.factors, t.isClassical = false := by
    intro t ht
    obtain ⟨factor, -, rfl⟩ := List.mem_map.1 ht
    rfl
  have hgroups : (productInstruction p).targetGroups = [factorTargets p.factors] := by
    rw [targetGroups_of_isProduct (by rw [hkind]; rfl), productInstruction_eq]
    exact Target.productGroups_joinProduct (by simpa [factorTargets] using hp) hcombiner
  have hqubits : (factorTargets p.factors).filterMap Target.qubit? = p.factors.map Prod.fst := by
    rw [factorTargets, List.filterMap_map, ← List.filterMap_eq_map]
    rfl
  rw [events_of_isMetadata_eq_false (by rw [hkind]; rfl), hgroups, List.flatMap_singleton,
    pieceEvents_of_isClassical_eq_false hclassical, hkind, hqubits]
  rfl

/-- The instructions that write a sound layer have its events. -/
theorem events_instructions {l : Layer} (hl : l.IsSound) (hloop : l.isLoop = false) :
    l.instructions.flatMap (Instruction.events false) = l.events := by
  by_cases hsilent : l.isSilent = true
  · have hnone : l.events = [] := by
      cases l <;> simp [isSilent] at hsilent <;> rfl
    rw [hnone]
    exact List.flatMap_eq_nil_iff.2 fun i hi =>
      events_of_isPlain (isPlain_of_mem_instructions hsilent i hi)
  · cases l with
    | measure targets =>
      rw [instructions, events, List.flatMap_map, List.map_eq_flatMap]
      exact List.flatMap_congr fun t _ => events_onQubits_measure t
    | product products =>
      rw [instructions, events, List.flatMap_map, List.map_eq_flatMap]
      exact List.flatMap_congr fun p hp => events_productInstruction (hl p hp)
    | annotations _ | feedback _ | noise _ => rfl
    | loop count body => simp [isLoop] at hloop
    | _ => exact absurd rfl hsilent

end Layer

theorem lawful_eventReading : eventReading.Lawful Layer.IsSound Instruction.IsSound where
  refl _ := rfl
  symm h := h.symm
  trans h h' := h.trans h'
  append h h' := congrArg₂ _ h h'
  stable := Layer.stable_isSound
  additive := Instruction.additive_events
  instruction_tick := Instruction.events_of_isPlain Instruction.isPlain_tick
  checked _ hl i hi := (Layer.isSound_of_mem_instructions hl i hi).1
  vacuous l _ hvacuous := by
    cases l <;> simp_all [eventReading, Layer.events, Layer.isVacuous]
  split _ _ hi h _ := LayerCircuit.events_of_yields hi h
  absorb _ _ _ h _ _ := by
    cases (Layer.absorbed_of_absorb? h).1 <;> simp [eventReading, Layer.events]
  rotations _ _ := rfl
  rotationReset _ _ := rfl
  interactSwap _ _ _ _ _ := rfl
  swapInteract _ _ _ _ _ := rfl
  shifts _ _ := rfl
  write _ hloop hl := Layer.events_instructions hl hloop

/-! ## Noise injection -/

namespace NoiseContext

open Instruction

theorem events_of_copied {p j : Instruction} (h : Copied p j) :
    j.events false = p.events false := by
  cases h with
  | same => rfl
  | flipped x hmeasurement =>
    have hmetadata : p.kind.isMetadata = false := by
      revert hmeasurement
      cases p.kind <;> simp [GateKind.isMeasurement, GateKind.isMetadata]
    rw [events_of_isMetadata_eq_false hmetadata,
      @events_of_isMetadata_eq_false { p with args := [x] } hmetadata]
    rfl

theorem events_pieceOf {i : Instruction} (hi : i.IsChecked) (hkind : i.kind.isMetadata = false)
    {group : List Target} (hgroup : group ∈ i.targetGroups) :
    (i.pieceOf group).events false = i.pieceEvents group := by
  rw [@events_of_isMetadata_eq_false (i.pieceOf group) hkind,
    (isPiece_of_mem_targetGroups hi hkind hgroup).targetGroups, List.flatMap_singleton]
  rfl

theorem events_of_forall₂_copied {ps js : List Instruction} (h : List.Forall₂ Copied ps js) :
    js.flatMap (Instruction.events false) = ps.flatMap (Instruction.events false) := by
  induction h with
  | nil => rfl
  | cons hcopied _ ih => rw [List.flatMap_cons, List.flatMap_cons, events_of_copied hcopied, ih]

theorem unnoticed_events : Unnoticed (Instruction.events false) where
  additive := additive_events
  copied i js hi h := by
    cases h with
    | whole => exact List.flatMap_singleton _ _
    | pieces hkind hjs =>
      rw [events_of_forall₂_copied hjs, events_of_isMetadata_eq_false hkind, piecesOf,
        List.flatMap_map]
      exact List.flatMap_congr fun group hgroup => events_pieceOf hi.1 hkind hgroup
  channel _ hj := events_of_isPlain hj.plain
  tick i hi h := by
    have hname : i.name = Gate.tick.name := by simpa [isTick] using h
    exact events_tick hi.1 (gate?_of_name hname)

end NoiseContext

end StabCircuit
