import StabCircuit.Gate
import StabCircuit.Target

/-!
# Instructions

A named operation with targets and numeric arguments.  `Instruction.make`
resolves the name and checks the targets; an instruction assembled by hand may
carry any name, and one that names no gate counts as metadata.
-/

namespace StabCircuit

/-- A named operation with targets and numeric arguments. -/
structure Instruction where
  /-- The name, canonical when made by `Instruction.make`. -/
  name : String
  /-- The targets in the order written. -/
  targets : List Target
  /-- Probabilities, coordinates or an observable index. -/
  args : List Scalar
deriving DecidableEq, Inhabited

namespace Instruction

/-- What is wrong with a target list under a gate, if anything. -/
def targetFault? (gate : Gate) (targets : List Target) : Option TargetFault :=
  match gate.kind with
  | .tick => if targets.isEmpty then none else some .takesNone
  | .clifford2 | .noise2 => if targets.length % 2 = 0 then none else some .oddCount
  | .measureProduct | .noiseProduct =>
    let opens := targets.head?.any Target.isCombiner
    let closes := targets.getLast?.any Target.isCombiner
    let plain := targets.any fun t => !t.isPauli && !t.isCombiner
    if opens || closes || plain then some .notProducts else none
  | _ =>
    if (gate = .detector ∨ gate = .observableInclude) ∧ targets.any (fun t => !t.isRecord) then
      some .notRecords
    else none

/-- An instruction with a resolved name and checked targets. -/
def make (name : String) (targets : List Target) (args : List Scalar) :
    Except CircuitError Instruction :=
  match Gate.lookup name with
  | .error e => .error e
  | .ok gate =>
    match targetFault? gate targets with
    | some fault => .error (.invalidTargets gate.name fault)
    | none => .ok { name := gate.name, targets, args }

/-- A step boundary. -/
def tick : Instruction := { name := Gate.tick.name, targets := [], args := [] }

/-- A gate over plain qubits, without checks. -/
def onQubits (gate : Gate) (qubits : List Nat) (args : List Scalar) : Instruction :=
  { name := gate.name, targets := qubits.map .qubit, args }

/-- The gate that the name resolves to. -/
def gate? (i : Instruction) : Option Gate := Gate.ofName? i.name

/-- The kind of operation; an unknown name counts as metadata. -/
def kind (i : Instruction) : GateKind := (i.gate?.map Gate.kind).getD .metadata

/-- Whether this is a step boundary under its canonical name. -/
def isTick (i : Instruction) : Bool := i.name == Gate.tick.name

/-- Whether the instruction is no metadata and has a classical bit among its targets. -/
def isClassicallyControlled (i : Instruction) : Bool :=
  i.kind != .metadata && i.targets.any Target.isClassical

/-- The qubits touched, in target order and with repetitions. -/
def qubits (i : Instruction) : List Nat := i.targets.filterMap Target.qubit?

/-- The number of results appended to the measurement record. -/
def measurementCount (i : Instruction) : Nat :=
  match i.kind with
  | .measure | .measureReset => i.targets.length
  | .measureProduct => (Target.productGroups i.targets).length
  | _ => 0

/-- The independent pieces of the target list: pairs, products or single targets; the targets of
a metadata instruction or step boundary form one piece. -/
def targetGroups (i : Instruction) : List (List Target) :=
  match i.kind with
  | .metadata | .tick => [i.targets]
  | .measureProduct | .noiseProduct => Target.productGroups i.targets
  | .clifford2 | .noise2 => Target.pairs i.targets
  | _ => i.targets.map fun t => [t]

/-- Writes targets, each after a blank unless a combiner stands before it. -/
def targetsText : Bool → List Target → String
  | _, [] => ""
  | glued, t :: rest =>
    if t.isCombiner then "*" ++ targetsText true rest
    else (if glued then "" else " ") ++ t.text ++ targetsText false rest

/-- The argument list in parentheses, or nothing when there are no arguments. -/
def argsText (args : List Scalar) : String :=
  if args.isEmpty then "" else "(" ++ ", ".intercalate (args.map Scalar.compact) ++ ")"

/-- The instruction as a line of circuit text, without indentation. -/
def text (i : Instruction) : String := i.name ++ argsText i.args ++ targetsText false i.targets

/-- The letters of the measured bases of a measurement. -/
def measuredBases? (i : Instruction) : Option String :=
  match i.gate? with
  | none => none
  | some .measureProduct =>
    some (String.ofList (i.targets.filterMap fun t => t.basis?.map Basis.letter))
  | some g => g.measuredBasis?.map Basis.text

/-- Numeric equality: same name and targets, arguments equal as numbers. -/
def numEq (i j : Instruction) : Bool :=
  i.name == j.name && i.targets == j.targets && Scalar.listNumEq i.args j.args

end Instruction

end StabCircuit
