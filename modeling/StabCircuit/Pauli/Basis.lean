/-!
# Pauli bases

The three single-qubit Pauli operators up to phase, their products and whether
they anticommute.
-/

namespace StabCircuit

/-- A single-qubit Pauli basis. -/
inductive Basis where
  /-- Pauli X. -/
  | x
  /-- Pauli Y. -/
  | y
  /-- Pauli Z. -/
  | z
deriving DecidableEq, Inhabited

namespace Basis

/-- The three bases in letter order. -/
def all : List Basis := [x, y, z]

/-- The letter of a basis. -/
def letter : Basis → Char
  | x => 'X'
  | y => 'Y'
  | z => 'Z'

/-- The letter of a basis, as a text. -/
def text (b : Basis) : String := String.singleton b.letter

/-- Reads a letter of either case. -/
def ofLetter? : Char → Option Basis
  | 'X' | 'x' => some x
  | 'Y' | 'y' => some y
  | 'Z' | 'z' => some z
  | _ => none

/-- Reads an upper-case letter. -/
def ofUpper? : Char → Option Basis
  | 'X' => some x
  | 'Y' => some y
  | 'Z' => some z
  | _ => none

/-- Position in letter order. -/
def index : Basis → Nat
  | x => 0
  | y => 1
  | z => 2

/-- The phase-free product; `none` is the identity. -/
def multiply : Basis → Basis → Option Basis
  | x, y | y, x => some z
  | y, z | z, y => some x
  | x, z | z, x => some y
  | _, _ => none

/-- Whether two Paulis anticommute, which they do when they differ. -/
def anticommutes (a b : Basis) : Bool := a != b

/-- The basis different from two others, or `y` when those are equal. -/
def third : Basis → Basis → Basis
  | x, y | y, x => z
  | y, z | z, y => x
  | _, _ => y

/-- Whether the pair follows the cyclic order X, Y, Z. -/
def isCyclic : Basis → Basis → Bool
  | x, y | y, z | z, x => true
  | _, _ => false

/-- X and Z exchanged. -/
def exchangeXZ : Basis → Basis
  | x => z
  | y => y
  | z => x

theorem multiply_self (a : Basis) : a.multiply a = none := by cases a <;> rfl

end Basis

end StabCircuit
