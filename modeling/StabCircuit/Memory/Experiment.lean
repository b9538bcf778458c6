import StabCircuit.Builder.Patch
import StabCircuit.Memory.Observables
import StabCircuit.Noise.Injection

/-!
# Memory experiments

A memory experiment measures the observables of a patch, then its stabilizers
for a number of noisy rounds, and reads the observables back.  Detectors compare
each round with the one before.
-/

namespace StabCircuit

/-- The description of a memory experiment. -/
structure MemoryExperiment where
  /-- The stabilizers measured every round. -/
  patch : Patch
  /-- Channels applied once a moment, and the probability of a wrong result. -/
  noise : NoiseRule := .silent
  /-- Logical observables of X type. -/
  observablesX : List PauliProduct := []
  /-- Logical observables of Z type, paired with the X ones by position. -/
  observablesZ : List PauliProduct := []
  /-- Positions of the ancillas, chosen when absent. -/
  ancillas : Option (List Coord) := none
  /-- The number of noisy rounds. -/
  rounds : Nat := 1
  /-- How the stabilizers are measured. -/
  style : CheckStyle := .product

namespace MemoryExperiment

/-- An experiment under construction. -/
structure Stage where
  /-- The builder after the first stabilizer round. -/
  builder : Builder
  /-- The observables to measure. -/
  observables : List PauliProduct
  /-- The indices of the ancillas. -/
  immune : OrderedSet Nat
  /-- The indices of the data qubits. -/
  data : OrderedSet Nat

/-- Runs calls on a builder and keeps the builder on success only. -/
def build (b : Builder) (calls : Build Unit) : Except CompileError Builder :=
  match calls.run b with
  | (.ok (), b) => .ok b
  | (.error e, _) => .error (.circuit e)

/-- Measures every observable and includes its result, keys made of `label` and its number. -/
def measureObservables (label : String) (observables : List PauliProduct) : Build Unit :=
  observables.zipIdx.forM fun (p, k) => do
    let key := Key.name (label ++ toString k)
    Build.measureProduct p key none
    Build.includeObservable [key] k

/-- The qubits of an experiment. -/
def qubits (e : MemoryExperiment) (observables : List PauliProduct) : List Coord :=
  e.patch.dataSet.toList ++
    (if e.style = .ancilla then e.patch.measureSet.toList else []) ++
    observables.flatMap PauliProduct.qubits

/-- The indices of qubits. -/
def indexSet (b : Builder) (qubits : List Coord) : Except CompileError (OrderedSet Nat) :=
  (CompileError.lift (qubits.mapM (b.indexOf none))).map OrderedSet.ofList

/-- The first observables and the first stabilizer round. -/
def start (e : MemoryExperiment) : Except CompileError Stage := do
  CompileError.lift e.noise.validate
  let paired ← PairedObservables.pair e.patch e.observablesX e.observablesZ e.ancillas
  let fresh := Builder.forQubits (e.qubits paired.observables)
  let immune ← indexSet fresh paired.ancillas
  let data ← indexSet fresh e.patch.dataSet.toList
  let builder ← build fresh do
    measureObservables "OBS_START" paired.observables
    Build.measurePatch e.patch "init" none e.style
    Build.tick
  return { builder, observables := paired.observables, immune, data }

/-- The last stabilizer round, compared with `layer`, and the last observables. -/
def finish (e : MemoryExperiment) (observables : List PauliProduct) (b : Builder)
    (layer : String) : Except CompileError Circuit := do
  let b ← build b do
    Build.measurePatch e.patch "end" (some layer) e.style
    measureObservables "OBS_END" observables
  return b.circuit

/-- The noise of a round: channels on the data once a moment, and flipped results. -/
def roundModel (noise : NoiseRule) : NoiseModel :=
  { tickNoise := some { noise with flipResult := 0 }
    anyMeasurement := some (NoiseRule.silent.flipping noise.flipResult)
    anyClifford1 := some .silent
    anyClifford2 := some .silent
    allowReuse := true }

/-- One round without noise: stabilizers compared with the round before. -/
def round (e : MemoryExperiment) : Build Unit := do
  Build.measurePatch e.patch "loop" (some "init") e.style
  Build.shiftCoords (.make 0 0) 1
  Build.tick

/-- The experiment with noise on data qubits and results in every round. -/
def phenomenological (e : MemoryExperiment) : Except CompileError Circuit := do
  if e.rounds = 0 then .error (.invalidConfiguration .noRounds)
  let stage ← e.start
  let loop ← build stage.builder.fork e.round
  let body ← noisyCircuit loop.circuit (roundModel e.noise) stage.immune (some stage.data)
  let body := if body.endsWithTick then body else body.tick
  let b ← build { stage.builder with tracker := loop.tracker } (Build.appendRepeated body e.rounds)
  e.finish stage.observables b "loop"

/-- The experiment with noise on data qubits once, between two perfect rounds. -/
def codeCapacity (e : MemoryExperiment) : Except CompileError Circuit := do
  if !e.noise.flipResult.numEq 0 then .error (.invalidConfiguration .capacityFlip)
  let stage ← e.start
  let b ← build stage.builder do
    e.noise.after.entries.forM fun (channel, p) =>
      if (0 : Scalar).numLt p then Build.gate channel e.patch.dataSet.toList [p] else pure ()
    Build.tick
  e.finish stage.observables b "init"

end MemoryExperiment

end StabCircuit
