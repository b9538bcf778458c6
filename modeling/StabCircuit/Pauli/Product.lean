import StabCircuit.Coord
import StabCircuit.Pauli.Basis

/-!
# Pauli products

Phase-free products of single-qubit Paulis over coordinates.  Terms multiply:
a repeated term cancels and X times Z is Y, in whatever shape they arrive.
Qubits with the identity are never stored.
-/

namespace StabCircuit

/-- A phase-free Pauli product, as a map from qubits to bases. -/
structure PauliProduct where
  /-- The basis on every qubit that does not carry the identity. -/
  factors : OrderedMap Coord Basis
deriving DecidableEq, Inhabited

namespace PauliProduct

/-- The product without factors. -/
def identity : PauliProduct := ⟨OrderedMap.empty⟩

/-- The factors as pairs, in canonical qubit order. -/
def terms (p : PauliProduct) : List (Coord × Basis) := p.factors.entries

/-- The qubits that carry a factor, in canonical order. -/
def qubits (p : PauliProduct) : List Coord := p.factors.keys

/-- The number of factors. -/
def size (p : PauliProduct) : Nat := p.factors.size

/-- Whether the product is the identity. -/
def isIdentity (p : PauliProduct) : Bool := p.factors.isEmpty

/-- The basis on a qubit, if it is not the identity there. -/
def get? (p : PauliProduct) (qubit : Coord) : Option Basis := p.factors.get? qubit

/-- What a factor becomes when multiplied by a basis. -/
def multiplyFactor (basis : Basis) : Option Basis → Option Basis
  | none => some basis
  | some existing => existing.multiply basis

/-- Multiplies a single-qubit term into the product. -/
def multiplyTerm (p : PauliProduct) (qubit : Coord) (basis : Basis) : PauliProduct :=
  ⟨p.factors.alter qubit (multiplyFactor basis)⟩

/-- Multiplies a list of terms into the product. -/
def multiplyTerms (p : PauliProduct) (terms : List (Coord × Basis)) : PauliProduct :=
  terms.foldl (fun p term => p.multiplyTerm term.1 term.2) p

/-- Multiplies a basis onto every listed qubit. -/
def multiplyBasis (p : PauliProduct) (basis : Basis) (qubits : List Coord) : PauliProduct :=
  p.multiplyTerms (qubits.map fun q => (q, basis))

/-- Multiplies groups of qubits that share a basis into the product. -/
def multiplyGroups (p : PauliProduct) (groups : List (Basis × List Coord)) : PauliProduct :=
  groups.foldl (fun p group => p.multiplyBasis group.1 group.2) p

/-- The product of a list of terms. -/
def ofTerms (terms : List (Coord × Basis)) : PauliProduct := identity.multiplyTerms terms

/-- The product of two products. -/
def multiply (p q : PauliProduct) : PauliProduct := p.multiplyTerms q.terms

instance : Mul PauliProduct := ⟨multiply⟩

/-- Whether two products commute: an even number of qubits carry different factors. -/
def commutes (p q : PauliProduct) : Bool :=
  let clashes := p.terms.filter fun (qubit, b) =>
    match q.get? qubit with
    | some other => b.anticommutes other
    | none => false
  clashes.length % 2 == 0

/-- The product as text: factors joined by stars, or `I`. -/
def text (p : PauliProduct) : String :=
  if p.isIdentity then "I"
  else "*".intercalate (p.terms.map fun (qubit, b) => b.text ++ qubit.text)

end PauliProduct

end StabCircuit
