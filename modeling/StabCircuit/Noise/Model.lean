import StabCircuit.Instruction
import StabCircuit.Support.OrderedMap

/-!
# Noise models

A noise rule lists the error channels that follow an operation and how often a
measurement reports the wrong result.  A noise model is a table of rules and of
idling strengths.  For one piece of an instruction the rule is found by gate
name, then by the wildcard for its kind, then by the measured bases.
-/

namespace StabCircuit

/-- Checks that a number lies between zero and one. -/
def checkProbability (what : String) (p : Scalar) : Except CircuitError Unit :=
  if (0 : Scalar).numLe p && p.numLe 1 then .ok ()
  else .error (.invalidArgument (.probability what p))

/-- The noise attached to one kind of operation. -/
structure NoiseRule where
  /-- The error channels that follow, by name, with their probabilities. -/
  after : OrderedMap String Scalar
  /-- The probability of reporting the wrong result. -/
  flipResult : Scalar
deriving DecidableEq, Inhabited

namespace NoiseRule

/-- The rule that adds nothing. -/
def silent : NoiseRule := ⟨OrderedMap.empty, 0⟩

/-- The rule with one channel afterwards. -/
def following (channel : Gate) (p : Scalar) : NoiseRule :=
  ⟨OrderedMap.ofList [(channel.name, p)], 0⟩

/-- The rule with a probability of reporting the wrong result. -/
def flipping (r : NoiseRule) (p : Scalar) : NoiseRule := { r with flipResult := p }

/-- Whether the rule adds nothing. -/
def isNoiseless (r : NoiseRule) : Bool :=
  r.flipResult.numEq 0 && r.after.values.all fun p => p.numEq 0

/-- Checks one channel of a rule. -/
def validateChannel (name : String) (p : Scalar) : Except CircuitError Unit := do
  let gate ← Gate.lookup name
  if !gate.kind.isNoise then
    .error (.invalidArgument (.notErrorChannel name))
  checkProbability name p

/-- Checks the probabilities and channel names. -/
def validate (r : NoiseRule) : Except CircuitError Unit := do
  checkProbability "flip_result" r.flipResult
  r.after.entries.forM fun (name, p) => validateChannel name p

end NoiseRule

/-- The outcome of looking up a rule. -/
inductive RuleMatch where
  /-- The operation never receives noise. -/
  | exempt
  /-- A rule applies. -/
  | rule (rule : NoiseRule)
  /-- Nothing in the table covers the operation. -/
  | missing
deriving DecidableEq

/-- A table of noise rules. -/
structure NoiseModel where
  /-- Depolarization of qubits that a moment does not touch. -/
  idleDepolarization : Scalar := 0
  /-- Extra depolarization of qubits that wait while others are reset or measured. -/
  waitingDepolarization : Scalar := 0
  /-- The rule for every qubit of the system once a moment. -/
  tickNoise : Option NoiseRule := none
  /-- Rules by gate name. -/
  gateRules : OrderedMap String NoiseRule := OrderedMap.empty
  /-- Rules by the letters of the measured bases. -/
  measureRules : OrderedMap String NoiseRule := OrderedMap.empty
  /-- The rule for any measurement without a rule of its own. -/
  anyMeasurement : Option NoiseRule := none
  /-- The rule for any single-qubit Clifford gate without a rule of its own. -/
  anyClifford1 : Option NoiseRule := none
  /-- The rule for any two-qubit Clifford gate without a rule of its own. -/
  anyClifford2 : Option NoiseRule := none
  /-- Whether several operations of a moment may use the same qubit. -/
  allowReuse : Bool := false
  /-- Whether an operation without a rule is an error. -/
  strict : Bool := false
deriving DecidableEq, Inhabited

namespace NoiseModel

/-- Every operation depolarized and every result flipped with one probability. -/
def uniform (p : Scalar) : NoiseModel :=
  let one := (NoiseRule.following .depolarize1 p).flipping p
  let two := (NoiseRule.following .depolarize2 p).flipping p
  { idleDepolarization := p
    anyClifford1 := some (.following .depolarize1 p)
    anyClifford2 := some (.following .depolarize2 p)
    measureRules := OrderedMap.ofList
      [("X", one), ("Y", one), ("Z", one), ("XX", two), ("YY", two), ("ZZ", two)]
    gateRules := OrderedMap.ofList
      [("RX", .following (.pauliError .z) p), ("RY", .following (.pauliError .x) p),
        ("R", .following (.pauliError .x) p)] }

/-- A superconducting-inspired model: cheap single-qubit gates, expensive resets and
measurements, and idling while others are measured. -/
def superconducting (p : Scalar) : NoiseModel :=
  { idleDepolarization := p / 10
    waitingDepolarization := 2 * p
    anyClifford1 := some (.following .depolarize1 (p / 10))
    anyClifford2 := some (.following .depolarize2 p)
    measureRules := OrderedMap.ofList
      [("Z", (NoiseRule.following .depolarize1 p).flipping (p * 5)),
        ("ZZ", (NoiseRule.following .depolarize2 p).flipping (p * 5))]
    gateRules := OrderedMap.ofList [("R", .following (.pauliError .x) (p * 2))] }

/-- Checks that a key of the measurement table is made of basis letters. -/
def validateBases (bases : String) : Except CircuitError Unit :=
  let letters := bases.toList
  if letters.isEmpty || letters.any (fun c => (Basis.ofUpper? c).isNone) then
    .error (.unsupportedBasis bases)
  else .ok ()

/-- Checks every probability and name of the table. -/
def validate (m : NoiseModel) : Except CircuitError Unit := do
  checkProbability "idle_depolarization" m.idleDepolarization
  checkProbability "additional_depolarization_waiting_for_m_or_r" m.waitingDepolarization
  m.gateRules.keys.forM fun name => (Gate.lookup name).map fun _ => ()
  m.measureRules.keys.forM validateBases
  let rules := m.gateRules.values ++ m.measureRules.values ++ m.tickNoise.toList ++
    m.anyMeasurement.toList ++ m.anyClifford1.toList ++ m.anyClifford2.toList
  rules.forM NoiseRule.validate

/-- The rule under a gate name: the entry of that very name, else the first entry whose name
resolves to it. -/
def gateRule? (m : NoiseModel) (name : String) : Option NoiseRule :=
  match m.gateRules.get? name with
  | some rule => some rule
  | none =>
    (m.gateRules.entries.find? fun entry =>
      (Gate.ofName? entry.1).any fun g => g.name == name).map (·.2)

/-- The wildcard rule for a kind of operation. -/
def wildcard? (m : NoiseModel) : GateKind → Option NoiseRule
  | .clifford1 => m.anyClifford1
  | .clifford2 => m.anyClifford2
  | .measure | .measureReset | .measureProduct => m.anyMeasurement
  | _ => none

/-- The rule for one piece of an instruction. -/
def ruleFor (m : NoiseModel) (piece : Instruction) : RuleMatch :=
  if piece.kind.isMetadata || piece.kind.isNoise || piece.isClassicallyControlled then .exempt
  else
    let byName := m.gateRule? piece.name
    let byKind := byName.or (m.wildcard? piece.kind)
    let byBases := byKind.or (piece.measuredBases?.bind m.measureRules.get?)
    match byBases with
    | some rule => .rule rule
    | none => .missing

end NoiseModel

end StabCircuit
