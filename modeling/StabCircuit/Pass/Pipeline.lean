import StabCircuit.Layer.ZBasis
import StabCircuit.Noise.Injection
import StabCircuit.Pass.Properties

/-!
# Passes and pipelines

A pass reads or changes a circuit under shared properties.  A pipeline is a
list of passes chosen by a configuration: noise injection, the change to Z basis,
local optimization and verification, in this order.
-/

namespace StabCircuit

/-- A step of a compilation. -/
inductive Pass where
  /-- Adds the noise of the noise model. -/
  | noiseInjection
  /-- Changes every operation to the Z basis. -/
  | zBasisChange
  /-- Fuses neighbouring layers. -/
  | optimization
  /-- Checks moments and record targets. -/
  | verification
deriving DecidableEq

/-- A circuit under compilation with its properties. -/
structure Job where
  /-- The circuit. -/
  circuit : Circuit
  /-- The shared properties. -/
  properties : Properties

namespace Pass

/-- The name of a pass. -/
def name : Pass → String
  | noiseInjection => "NoiseInjection"
  | zBasisChange => "ZBasisTranslation"
  | optimization => "LocalOptimization"
  | verification => CompileError.verificationName

/-- Whether a pass leaves the circuit alone. -/
def isAnalysis : Pass → Bool
  | verification => true
  | _ => false

/-- Whether a pass has something to do. -/
def shouldRun (p : Pass) (job : Job) : Bool :=
  match p with
  | noiseInjection => job.properties.noise.isSome
  | _ => true

/-- Local optimization; a circuit with an instruction that has no layer is left unchanged. -/
def optimize (c : Circuit) : Except CompileError Circuit :=
  match LayerCircuit.ofCircuit c with
  | .ok layers => .ok (LayerCircuit.toCircuit (LayerCircuit.optimized layers))
  | .error (.unsupportedInstruction _) => .ok c
  | .error e => .error e

/-- Runs a pass. -/
def run (p : Pass) (job : Job) : Except CompileError Job :=
  match p with
  | noiseInjection =>
    match job.properties.noise with
    | none => .ok job
    | some model =>
      (noisyCircuit job.circuit model job.properties.immune job.properties.system).map
        fun circuit => { job with circuit }
  | zBasisChange =>
    (LayerCircuit.zBasisCircuit job.circuit).map fun circuit => { job with circuit }
  | optimization => (optimize job.circuit).map fun circuit => { job with circuit }
  | verification =>
    (Verification.verify job.properties.allowsReuse job.circuit).map fun result =>
      { job with
        properties := { job.properties with
          store := job.properties.store.insert .verification result } }

end Pass

/-- The choice of passes and their properties. -/
structure PipelineConfig where
  /-- From level one on, layers are fused and the result is verified. -/
  level : Nat := 1
  /-- Whether to translate to Z-basis operations. -/
  zBasis : Bool := false
  /-- The shared properties. -/
  properties : Properties := {}

namespace PipelineConfig

/-- Adds a noise model. -/
def withNoise (c : PipelineConfig) (model : NoiseModel) : PipelineConfig :=
  { c with properties := { c.properties with noise := some model } }

/-- Adds immune qubits to those already given. -/
def withImmune (c : PipelineConfig) (qubits : List Nat) : PipelineConfig :=
  { c with properties := { c.properties with
      immune := OrderedSet.insertMany c.properties.immune qubits } }

/-- Fixes the qubits that exist for idle noise. -/
def withSystem (c : PipelineConfig) (qubits : List Nat) : PipelineConfig :=
  { c with properties := { c.properties with system := some (OrderedSet.ofList qubits) } }

/-- The passes of a configuration, in order. -/
def passes (c : PipelineConfig) : List Pass :=
  (if c.properties.noise.isSome then [.noiseInjection] else []) ++
    (if c.zBasis then [.zBasisChange] else []) ++
    (if 1 ≤ c.level then [.optimization, .verification] else [])

end PipelineConfig

/-- Runs passes one after another and stops at a failure; the job keeps what earlier passes did. -/
def runPasses (job : Job) : List Pass → Job × Except CompileError Unit
  | [] => (job, .ok ())
  | p :: rest =>
    if p.shouldRun job then
      match p.run job with
      | .ok job => runPasses job rest
      | .error e => (job, .error e)
    else runPasses job rest

/-- Runs the passes of a configuration on a circuit. -/
def PipelineConfig.run (c : PipelineConfig) (circuit : Circuit) : Job × Except CompileError Unit :=
  runPasses ⟨circuit, c.properties⟩ c.passes

end StabCircuit
