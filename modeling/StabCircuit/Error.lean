import StabCircuit.Record.Key

/-!
# Construction errors

The causes for which building or reading a circuit can fail, and their wording.
-/

namespace StabCircuit

/-- What is wrong with an instruction's targets. -/
inductive TargetFault where
  /-- The instruction takes no targets. -/
  | takesNone
  /-- Targets are consumed in pairs and one is left over. -/
  | oddCount
  /-- Only Pauli targets joined by combiners are allowed. -/
  | notProducts
  /-- Only measurement record targets are allowed. -/
  | notRecords
deriving DecidableEq

namespace TargetFault

/-- The wording of a target fault. -/
def message : TargetFault → String
  | takesNone => "takes no targets"
  | oddCount => "needs an even number of targets"
  | notProducts => "expects Pauli targets joined by combiners"
  | notRecords => "only measurement record targets are allowed"

end TargetFault

/-- Operations on 64-bit counts whose result may not be one. -/
inductive CountOperation where
  | add
  | subtract
  | multiply
deriving DecidableEq

namespace CountOperation

/-- What the operation does, in words. -/
def text : CountOperation → String
  | add => "add"
  | subtract => "subtract"
  | multiply => "multiply"

end CountOperation

/-- Why the arguments of a call are refused. -/
inductive ArgumentFault where
  /-- A bounding box was asked for without coordinates. -/
  | emptyBounds
  /-- A text is not a target. -/
  | malformedTarget (text : String)
  /-- A tile has a different number of bases and data slots. -/
  | slotCount (position : Coord) (bases slots : Nat)
  /-- Measurements cannot be repeated zero times. -/
  | repeatZero
  /-- More measurements are to be repeated than are recorded. -/
  | repeatBeyondRecord (recorded body : Nat)
  /-- A measurement lies too far back for a record target. -/
  | tooFarBack (index : Nat)
  /-- A count leaves the range of 64-bit numbers. -/
  | overflow (operation : CountOperation)
  /-- A gate used as error channel is none. -/
  | notErrorChannel (name : String)
  /-- A probability is not between zero and one. -/
  | probability (what : String) (value : Scalar)
  /-- A gate does not act on single qubits. -/
  | notOneQubit (gate : String)
  /-- A gate does not act on pairs. -/
  | notTwoQubit (gate : String)
  /-- A detector has extra coordinates but no position. -/
  | extraWithoutPosition
  /-- A detector is post-selected but has no position. -/
  | postSelectedWithoutPosition
deriving DecidableEq

namespace ArgumentFault

/-- The wording of an argument fault. -/
def message : ArgumentFault → String
  | emptyBounds => "bounding box of an empty coordinate set"
  | malformedTarget text => "malformed target '" ++ text ++ "'"
  | slotCount position bases slots =>
    "tile at " ++ position.text ++ " has " ++ toString bases ++ " bases for " ++
      toString slots ++ " data slots"
  | repeatZero => "cannot repeat measurements zero times"
  | repeatBeyondRecord recorded body =>
    "only " ++ toString recorded ++ " measurements recorded, cannot repeat " ++ toString body
  | tooFarBack index => "measurement " ++ toString index ++ " is too far back to reference"
  | overflow operation => "attempt to " ++ operation.text ++ " with overflow"
  | notErrorChannel name => "'" ++ name ++ "' is not an error channel"
  | probability what value =>
    what ++ " probability " ++ value.plain ++ " is outside [0, 1]"
  | notOneQubit gate =>
    "'" ++ gate ++ "' is not a single-qubit operation usable with gate()"
  | notTwoQubit gate =>
    "'" ++ gate ++ "' is not a two-qubit operation usable with gate2()"
  | extraWithoutPosition => "detector has extra coordinates but no position"
  | postSelectedWithoutPosition => "detector is post-selected but has no position"

end ArgumentFault

/-- What is wrong with the shape of a line of circuit text. -/
inductive LineFault where
  /-- An argument list is not closed. -/
  | unterminatedArguments
  /-- An argument is not a number. -/
  | badArgument (text : String)
  /-- A closing brace without an open block. -/
  | unmatchedBrace
  /-- The header of a repeat block cannot be read. -/
  | malformedRepeat
  /-- The text ends inside a repeat block. -/
  | unterminatedRepeat
deriving DecidableEq

namespace LineFault

/-- The wording of a line fault. -/
def message : LineFault → String
  | unterminatedArguments => "unterminated argument list"
  | badArgument text => "bad argument '" ++ text ++ "'"
  | unmatchedBrace => "unmatched '\x7d'"
  | malformedRepeat => "malformed REPEAT header"
  | unterminatedRepeat => "unterminated REPEAT block"

end LineFault

/-- Why a circuit cannot be built or read. -/
inductive CircuitError where
  /-- A coordinate has no qubit index. -/
  | unknownQubit (position : Coord) (gate : Option String)
  /-- A key was bound before. -/
  | keyCollision (key : Key)
  /-- A key was never bound. -/
  | unboundKey (key : Key)
  /-- A key stands for an obstacle and may not be referenced. -/
  | obstacleReference (key : Key)
  /-- A text is not a basis. -/
  | unsupportedBasis (text : String)
  /-- A gate name is not in the gate table. -/
  | unknownGate (name : String)
  /-- The targets do not fit the gate. -/
  | invalidTargets (gate : String) (fault : TargetFault)
  /-- The arguments of a call are inconsistent. -/
  | invalidArgument (fault : ArgumentFault)
  /-- A tile mixes bases where one basis is needed. -/
  | basisMismatch (position : Coord) (expected actual : String)
  /-- A line of circuit text is malformed. -/
  | malformedLine (line : Nat) (fault : LineFault)
  /-- A line of circuit text is well formed but its content is refused. -/
  | rejectedLine (line : Nat) (cause : CircuitError)
deriving DecidableEq

namespace CircuitError

/-- Whether counting has left the range of 64-bit numbers. -/
def isOverflow : CircuitError → Bool
  | invalidArgument (.overflow _) => true
  | _ => false

/-- The wording of an error. -/
def message : CircuitError → String
  | unknownQubit position gate =>
    "Qubit at " ++ position.text ++ " is not part of this builder" ++
      match gate with
      | some name => " (gate: " ++ name ++ ")"
      | none => ""
  | keyCollision key => "Measurement key collision: " ++ key.text
  | unboundKey key => "No such measurement: " ++ key.text
  | obstacleReference key => "Obstacle at " ++ key.text
  | unsupportedBasis text => "Unsupported basis '" ++ text ++ "'"
  | unknownGate name => "Unknown gate '" ++ name ++ "'"
  | invalidTargets gate fault => "Invalid targets for '" ++ gate ++ "': " ++ fault.message
  | invalidArgument fault => "Invalid argument: " ++ fault.message
  | basisMismatch position expected actual =>
    "Basis mismatch at " ++ position.text ++ ": expected " ++ expected ++ ", got " ++ actual
  | malformedLine line fault => "Parse error on line " ++ toString line ++ ": " ++ fault.message
  | rejectedLine line cause => "Parse error on line " ++ toString line ++ ": " ++ cause.message

end CircuitError

end StabCircuit
