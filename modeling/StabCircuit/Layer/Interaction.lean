import StabCircuit.Circuit.Basic

/-!
# Two-qubit interactions

A controlled Pauli acts with one basis on each of two qubits and is symmetric in
the two qubit and basis pairs, so it is kept with the smaller pair first.
-/

namespace StabCircuit

/-- A Pauli-controlled Pauli: `basisA` on qubit `a` with `basisB` on qubit `b`. -/
structure Interaction where
  /-- The first qubit. -/
  a : Nat
  /-- The second qubit. -/
  b : Nat
  /-- The basis on the first qubit. -/
  basisA : Basis
  /-- The basis on the second qubit. -/
  basisB : Basis
deriving DecidableEq, Inhabited

/-- The two numbers of a pair in ascending order. -/
def sortedPair (a b : Nat) : Nat × Nat := (min a b, max a b)

/-- Order of pairs, by the first number and then by the second. -/
def natPairLe (p q : Nat × Nat) : Bool := ((compare p.1 q.1).then (compare p.2 q.2)).isLE

namespace Interaction

/-- The interaction in canonical orientation: smaller basis first, then smaller qubit. -/
def make (a : Nat) (basisA : Basis) (b : Nat) (basisB : Basis) : Interaction :=
  if natPairLe (basisA.index, a) (basisB.index, b) then ⟨a, b, basisA, basisB⟩
  else ⟨b, a, basisB, basisA⟩

/-- The interaction of a controlled Pauli gate. -/
def ofGate? : Gate → Nat → Nat → Option Interaction
  | .controlled control target, a, b => some (make a control b target)
  | _, _, _ => none

/-- The interaction of a gate given by its canonical name. -/
def ofName? (name : String) (a b : Nat) : Option Interaction :=
  match Gate.ofName? name with
  | some g => if g.name = name then ofGate? g a b else none
  | none => none

/-- The two qubits in ascending order. -/
def pair (i : Interaction) : Nat × Nat := sortedPair i.a i.b

/-- Whether both sides act in the Z basis. -/
def isZ (i : Interaction) : Bool := i.basisA == .z && i.basisB == .z

/-- The same bases on the opposite qubits. -/
def exchangeQubits (i : Interaction) : Interaction := make i.b i.basisA i.a i.basisB

/-- The same qubits with both bases Z. -/
def toZ (i : Interaction) : Interaction := make i.a .z i.b .z

/-- The bases on the qubits. -/
def sides (i : Interaction) : List (Nat × Basis) := [(i.a, i.basisA), (i.b, i.basisB)]

/-- The bases that the qubits carry after their exchange. -/
def exchangedSides (i : Interaction) : List (Nat × Basis) := [(i.b, i.basisA), (i.a, i.basisB)]

/-- The gate that performs the interaction. -/
def gate (i : Interaction) : Gate :=
  match i.basisA, i.basisB with
  | .x, .z => .controlled .z .x
  | .y, .z => .controlled .z .y
  | a, b => .controlled a b

/-- The operands of `gate`: ascending for equal bases, else those whose bases it names. -/
def operands (i : Interaction) : Nat × Nat :=
  match i.basisA, i.basisB with
  | .x, .z | .y, .z => (i.b, i.a)
  | a, b => if a = b then i.pair else (i.a, i.b)

end Interaction

end StabCircuit
