import StabCircuit.Error
import StabCircuit.Instruction
import StabCircuit.Pauli.Product

/-!
# Compilation errors

The causes for which transforming or generating a circuit can fail, and their
wording.
-/

namespace StabCircuit

/-- Why a configuration cannot be applied. -/
inductive ConfigurationFault where
  /-- A rule flips results of an operation that has none. -/
  | flipWithoutResult (gate : String)
  /-- A two-qubit channel follows an operation on an odd number of qubits. -/
  | oddChannel (channel context : String) (qubits : Nat)
  /-- The numbers of X and Z observables differ. -/
  | unpairedObservables (xs zs : Nat)
  /-- Two observables of the same kind anticommute. -/
  | anticommuting (what : String) (i : Nat) (a : PauliProduct) (j : Nat) (b : PauliProduct)
  /-- An X observable commutes with its Z partner. -/
  | commutingPartners (i : Nat) (x z : PauliProduct)
  /-- An X observable anticommutes with a Z observable that is not its partner. -/
  | anticommutingStrangers (i : Nat) (x : PauliProduct) (j : Nat) (z : PauliProduct)
  /-- The number of ancillas differs from the number of pairs. -/
  | ancillaCount (given pairs : Nat)
  /-- An ancilla sits on a qubit of the patch. -/
  | ancillaOverlap (position : Coord)
  /-- An experiment without rounds. -/
  | noRounds
  /-- Code capacity noise that flips results. -/
  | capacityFlip
deriving DecidableEq

namespace ConfigurationFault

/-- A numbered observable. -/
def numbered (i : Nat) (p : PauliProduct) : String := toString i ++ " (" ++ p.text ++ ")"

/-- The wording of a configuration fault. -/
def message : ConfigurationFault → String
  | flipWithoutResult gate =>
    "rule for '" ++ gate ++ "' has a result flip probability but it measures nothing"
  | oddChannel channel context qubits =>
    "two-qubit channel '" ++ channel ++ "' cannot follow '" ++ context ++ "' on " ++
      toString qubits ++ " qubit(s)"
  | unpairedObservables xs zs =>
    toString xs ++ " X observables cannot be paired with " ++ toString zs ++ " Z observables"
  | anticommuting what i a j b =>
    what ++ " " ++ numbered i a ++ " and " ++ numbered j b ++ " anticommute"
  | commutingPartners i x z =>
    "X observable " ++ numbered i x ++ " commutes with its Z partner (" ++ z.text ++ ")"
  | anticommutingStrangers i x j z =>
    "X observable " ++ numbered i x ++ " anticommutes with Z observable " ++ numbered j z
  | ancillaCount given pairs =>
    toString given ++ " ancillas given for " ++ toString pairs ++ " observable pairs"
  | ancillaOverlap position => "EPR ancilla " ++ position.text ++ " overlaps a patch qubit"
  | noRounds => "a memory experiment needs at least one round"
  | capacityFlip => "code capacity noise cannot flip measurement results"

end ConfigurationFault

/-- Why a circuit cannot be transformed or generated. -/
inductive CompileError where
  /-- The circuit cannot be built. -/
  | circuit (cause : CircuitError)
  /-- A strict noise model has no rule for a piece of an instruction. -/
  | noNoiseRule (piece : Instruction)
  /-- The configuration does not fit. -/
  | invalidConfiguration (fault : ConfigurationFault)
  /-- Two operations between the same step boundaries use a qubit. -/
  | qubitReused (qubit : Nat) (gate : String)
  /-- A layer touches a qubit twice. -/
  | overlappingLayer (kind : String) (qubits : List Nat)
  /-- An instruction has no form as a layer. -/
  | unsupportedInstruction (instruction : Instruction)
  /-- A record target reaches back before the first result. -/
  | lookback (instruction : Instruction) (back seen : Nat)
deriving DecidableEq

namespace CompileError

/-- The name under which verification failures are reported. -/
def verificationName : String := "moment_verification"

/-- Numbers between braces. -/
def numberSet (numbers : List Nat) : String :=
  "\x7b" ++ ", ".intercalate (numbers.map toString) ++ "\x7d"

/-- The wording of an error. -/
def message : CompileError → String
  | circuit cause => "IR error: " ++ cause.message
  | noNoiseRule piece => "No noise rule for '" ++ piece.text ++ "'"
  | invalidConfiguration fault => "Invalid pass configuration: " ++ fault.message
  | qubitReused qubit gate =>
    "Qubit " ++ toString qubit ++ " is used more than once in one moment (by '" ++ gate ++ "')"
  | overlappingLayer kind qubits =>
    "Layer is not disjoint: " ++ kind ++ " layer on qubits " ++ numberSet qubits
  | unsupportedInstruction i => "Instruction '" ++ i.text ++ "' has no layer representation"
  | lookback i back seen =>
    "Pass '" ++ verificationName ++ "' failed: '" ++ i.text ++ "' looks back " ++ toString back ++
      " measurements but only " ++ toString seen ++ " happened"

/-- Takes a construction error for a compilation error. -/
def lift {α : Type} : Except CircuitError α → Except CompileError α
  | .ok a => .ok a
  | .error e => .error (.circuit e)

end CompileError

end StabCircuit
