import StabCircuit.Error
import StabCircuit.Pauli.Product

/-!
# Lettered terms

Pauli products from terms whose bases are given by letters, which may fail.
-/

namespace StabCircuit

/-- Reads a basis from a text that is a single letter of either case. -/
def Basis.read (text : String) : Except CircuitError Basis :=
  match text.toList with
  | [c] =>
    match Basis.ofLetter? c with
    | some b => .ok b
    | none => .error (.unsupportedBasis text)
  | _ => .error (.unsupportedBasis text)

namespace PauliProduct

/-- Multiplies terms with lettered bases into a product. -/
def multiplyLettered (p : PauliProduct) : List (Coord × String) → Except CircuitError PauliProduct
  | [] => .ok p
  | (qubit, letter) :: rest =>
    (Basis.read letter).bind fun basis => (p.multiplyTerm qubit basis).multiplyLettered rest

/-- Multiplies groups of qubits with lettered bases into a product. -/
def multiplyLetteredGroups (p : PauliProduct) :
    List (String × List Coord) → Except CircuitError PauliProduct
  | [] => .ok p
  | (letter, qubits) :: rest =>
    (Basis.read letter).bind fun basis =>
      (p.multiplyBasis basis qubits).multiplyLetteredGroups rest

end PauliProduct

end StabCircuit
