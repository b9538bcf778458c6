import StabCircuit.Circuit.Basic
import StabCircuit.CompileError

/-!
# Verification of moments

A circuit is walked in execution order.  No qubit may be used by two operations
of a moment, error channels, annotations and classically controlled gates not
counted, and every record target must refer to a result that has happened.
-/

namespace StabCircuit

/-- What verification found. -/
structure VerificationResult where
  /-- The number of moments, repetitions counted. -/
  moments : Nat
  /-- The number of measurement results, repetitions counted. -/
  measurements : Nat
deriving DecidableEq

namespace Verification

/-- The state of the walk. -/
structure State where
  /-- The qubits used in the open moment. -/
  used : List Nat := []
  /-- The moments closed so far. -/
  moments : Nat := 0
  /-- The results so far. -/
  measurements : Nat := 0
deriving DecidableEq

/-- Fails at the first record target that reaches back too far. -/
def checkRecords (seen : Nat) (i : Instruction) : List Target → Except CompileError Unit
  | [] => .ok ()
  | .record offset :: rest =>
    if seen < offset.natAbs then .error (.lookback i offset.natAbs seen)
    else checkRecords seen i rest
  | _ :: rest => checkRecords seen i rest

/-- Takes qubits into the open moment, failing at one that is in use. -/
def claim (gate : String) (used : List Nat) : List Nat → Except CompileError (List Nat)
  | [] => .ok used
  | q :: rest => if used.contains q then .error (.qubitReused q gate) else claim gate (q :: used) rest

/-- Whether an instruction is left out of the check for reuse. -/
def isExempt (i : Instruction) : Bool :=
  i.kind.isMetadata || i.kind.isNoise || i.isClassicallyControlled

/-- Walks over an instruction. -/
def stepInstruction (allowReuse : Bool) (i : Instruction) (s : State) : Except CompileError State :=
  if i.isTick then .ok { s with used := [], moments := s.moments + 1 }
  else do
    checkRecords s.measurements i i.targets
    let used ← if isExempt i || allowReuse then .ok s.used else claim i.name s.used i.qubits
    return { s with used, measurements := s.measurements + i.measurementCount }

/-- Runs a step a number of times, stopping at a failure. -/
def iterate (step : State → Except CompileError State) : Nat → State → Except CompileError State
  | 0, s => .ok s
  | n + 1, s =>
    match step s with
    | .ok s => iterate step n s
    | .error e => .error e

mutual

/-- Walks over an operation, a repeat block as often as it says. -/
def walkOperation (allowReuse : Bool) : Operation → State → Except CompileError State
  | .instruction i, s => stepInstruction allowReuse i s
  | .block count body, s => iterate (fun s => walkAll allowReuse body s) count s

/-- Walks over operations. -/
def walkAll (allowReuse : Bool) : List Operation → State → Except CompileError State
  | [], s => .ok s
  | op :: rest, s =>
    match walkOperation allowReuse op s with
    | .ok s => walkAll allowReuse rest s
    | .error e => .error e

end

/-- Verifies a circuit; a moment that is still open at the end counts when it used a qubit. -/
def verify (allowReuse : Bool) (c : Circuit) : Except CompileError VerificationResult :=
  (walkAll allowReuse c {}).map fun s =>
    { moments := if s.used.isEmpty then s.moments else s.moments + 1
      measurements := s.measurements }

end Verification

end StabCircuit
