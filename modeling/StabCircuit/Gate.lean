import StabCircuit.Error
import StabCircuit.Pauli.Rotation

/-!
# The gate table

The fixed vocabulary of instructions, by what they do: annotations, single-qubit
rotations, controlled Paulis and swaps, resets, measurements and error channels.
Names are looked up without regard to case, and some gates have aliases.
-/

namespace StabCircuit

/-- What kind of operation a gate is. -/
inductive GateKind where
  /-- Coordinates, detectors and observables. -/
  | metadata
  /-- Step boundary. -/
  | tick
  /-- Single-qubit Clifford gate. -/
  | clifford1
  /-- Two-qubit Clifford gate. -/
  | clifford2
  /-- Single-qubit reset. -/
  | reset
  /-- Single-qubit measurement. -/
  | measure
  /-- Single-qubit measurement followed by a reset. -/
  | measureReset
  /-- Measurement of Pauli products. -/
  | measureProduct
  /-- Single-qubit error channel. -/
  | noise1
  /-- Two-qubit error channel. -/
  | noise2
  /-- Error channel over a Pauli product. -/
  | noiseProduct
deriving DecidableEq

namespace GateKind

/-- Whether instructions of this kind are meta-data only. -/
def isMetadata : GateKind → Bool
  | metadata | tick => true
  | _ => false

/-- Whether instructions of this kind append to the measurement record. -/
def isMeasurement : GateKind → Bool
  | measure | measureReset | measureProduct => true
  | _ => false

/-- Whether this kind collapses its qubits. -/
def isCollapsing : GateKind → Bool
  | measure | measureReset | measureProduct | reset => true
  | _ => false

/-- Whether this kind is an error channel. -/
def isNoise : GateKind → Bool
  | noise1 | noise2 | noiseProduct => true
  | _ => false

/-- Whether targets are consumed two at a time. -/
def isPairwise : GateKind → Bool
  | clifford2 | noise2 => true
  | _ => false

/-- Whether targets are Pauli products. -/
def isProduct : GateKind → Bool
  | measureProduct | noiseProduct => true
  | _ => false

end GateKind

/-- A gate of the vocabulary. -/
inductive Gate where
  /-- Declares the position of qubits. -/
  | qubitCoords
  /-- Shifts the coordinates of later detectors. -/
  | shiftCoords
  /-- Declares a parity of results that is known in advance. -/
  | detector
  /-- Adds results to a logical observable. -/
  | observableInclude
  /-- Step boundary. -/
  | tick
  /-- A single-qubit rotation. -/
  | rotate (rotation : Rotation)
  /-- A Pauli on the second qubit, controlled by a Pauli on the first. -/
  | controlled (control target : Basis)
  /-- Exchanges two qubits. -/
  | swap
  /-- Exchanges two qubits with a phase. -/
  | iswap
  /-- The inverse of `iswap`. -/
  | iswapInverse
  /-- Controlled X, then swap. -/
  | controlledSwap
  /-- Swap, then controlled X. -/
  | swapControlled
  /-- Controlled Z, then swap. -/
  | czSwap
  /-- A square root of a two-qubit Pauli, or its inverse. -/
  | rootPair (basis : Basis) (inverse : Bool)
  /-- Reset to the positive eigenstate of a basis. -/
  | reset (basis : Basis)
  /-- Measurement in a basis. -/
  | measure (basis : Basis)
  /-- Measurement in a basis, then reset in it. -/
  | measureReset (basis : Basis)
  /-- Measurement of Pauli products. -/
  | measureProduct
  /-- A Pauli applied at random. -/
  | pauliError (basis : Basis)
  /-- A uniformly random single-qubit Pauli. -/
  | depolarize1
  /-- A random single-qubit Pauli with given probabilities. -/
  | pauliChannel1
  /-- A uniformly random two-qubit Pauli. -/
  | depolarize2
  /-- A random two-qubit Pauli with given probabilities. -/
  | pauliChannel2
  /-- A Pauli product applied at random. -/
  | correlatedError
  /-- A Pauli product applied at random when the preceding one was not. -/
  | elseCorrelatedError
deriving DecidableEq

namespace Gate

/-- The canonical name. -/
def name : Gate → String
  | qubitCoords => "QUBIT_COORDS"
  | shiftCoords => "SHIFT_COORDS"
  | detector => "DETECTOR"
  | observableInclude => "OBSERVABLE_INCLUDE"
  | tick => "TICK"
  | rotate r => r.name
  | controlled .z target => "C" ++ target.text
  | controlled control target => control.text ++ "C" ++ target.text
  | swap => "SWAP"
  | iswap => "ISWAP"
  | iswapInverse => "ISWAP_DAG"
  | controlledSwap => "CXSWAP"
  | swapControlled => "SWAPCX"
  | czSwap => "CZSWAP"
  | rootPair b inverse => "SQRT_" ++ b.text ++ b.text ++ if inverse then "_DAG" else ""
  | reset .z => "R"
  | reset b => "R" ++ b.text
  | measure .z => "M"
  | measure b => "M" ++ b.text
  | measureReset .z => "MR"
  | measureReset b => "MR" ++ b.text
  | measureProduct => "MPP"
  | pauliError b => b.text ++ "_ERROR"
  | depolarize1 => "DEPOLARIZE1"
  | pauliChannel1 => "PAULI_CHANNEL_1"
  | depolarize2 => "DEPOLARIZE2"
  | pauliChannel2 => "PAULI_CHANNEL_2"
  | correlatedError => "CORRELATED_ERROR"
  | elseCorrelatedError => "ELSE_CORRELATED_ERROR"

/-- The kind of operation. -/
def kind : Gate → GateKind
  | qubitCoords | shiftCoords | detector | observableInclude => .metadata
  | tick => .tick
  | rotate _ => .clifford1
  | controlled _ _ | swap | iswap | iswapInverse | controlledSwap | swapControlled | czSwap
  | rootPair _ _ => .clifford2
  | reset _ => .reset
  | measure _ => .measure
  | measureReset _ => .measureReset
  | measureProduct => .measureProduct
  | pauliError _ | depolarize1 | pauliChannel1 => .noise1
  | depolarize2 | pauliChannel2 => .noise2
  | correlatedError | elseCorrelatedError => .noiseProduct

/-- Every gate. -/
def all : List Gate :=
  [qubitCoords, shiftCoords, detector, observableInclude, tick] ++
    Rotation.all.map rotate ++
    (Basis.all.flatMap fun a => Basis.all.map (controlled a)) ++
    [swap, iswap, iswapInverse, controlledSwap, swapControlled, czSwap] ++
    (Basis.all.flatMap fun b => [rootPair b false, rootPair b true]) ++
    Basis.all.map reset ++ Basis.all.map measure ++ Basis.all.map measureReset ++
    [measureProduct] ++ Basis.all.map pauliError ++
    [depolarize1, pauliChannel1, depolarize2, pauliChannel2, correlatedError,
      elseCorrelatedError]

/-- Other names of gates. -/
def aliases : List (String × Gate) :=
  [("CNOT", controlled .z .x), ("ZCX", controlled .z .x), ("ZCY", controlled .z .y),
    ("ZCZ", controlled .z .z), ("H_XZ", rotate (Rotation.toZ .x)),
    ("SQRT_Z", rotate (.rootZ false)),
    ("SQRT_Z_DAG", rotate (.rootZ true)),
    ("MZ", measure .z), ("RZ", reset .z), ("MRZ", measureReset .z),
    ("E", correlatedError), ("SWAPCZ", czSwap)]

/-- Every name with its gate, canonical names first. -/
def table : List (String × Gate) := all.map (fun g => (g.name, g)) ++ aliases

/-- ASCII letters in upper case. -/
def upperCase (text : String) : String := String.ofList (text.toList.map Char.toUpper)

/-- The gate of a name in any case. -/
def ofName? (text : String) : Option Gate :=
  let upper := upperCase text
  (table.find? fun entry => entry.1 == upper).map (·.2)

/-- The gate of a name, or the error that there is none. -/
def lookup (text : String) : Except CircuitError Gate :=
  match ofName? text with
  | some g => .ok g
  | none => .error (.unknownGate text)

/-- Whether the two operands may be exchanged. -/
def isSymmetric : Gate → Bool
  | controlled a b => a == b
  | swap | iswap | iswapInverse | czSwap | rootPair _ _ => true
  | _ => false

/-- The gate that this one equals with its operands exchanged, where that one is preferred. -/
def reversed? : Gate → Option Gate
  | controlled .x .z => some (controlled .z .x)
  | controlled .y .z => some (controlled .z .y)
  | swapControlled => some controlledSwap
  | _ => none

/-- The basis that a single-qubit measurement acts in. -/
def measuredBasis? : Gate → Option Basis
  | measure b | measureReset b => some b
  | _ => none

/-- The basis that a reset prepares. -/
def resetBasis? : Gate → Option Basis
  | reset b | measureReset b => some b
  | _ => none

/-- Whether neighbouring instructions of this gate with equal arguments merge. -/
def isFusable (g : Gate) : Bool :=
  match g.kind with
  | .metadata | .tick | .noiseProduct => false
  | _ => true

end Gate

end StabCircuit
