import StabCircuit.Noise.Model
import StabCircuit.Pass.Verification

/-!
# Shared properties of a compilation

The options that passes read, and a store with one slot for every type of value
that passes report.
-/

namespace StabCircuit

/-- The types of values that a store has a slot for. -/
inductive SlotType where
  /-- A text. -/
  | text
  /-- A number. -/
  | number
  /-- The outcome of verification. -/
  | verification
deriving DecidableEq

namespace SlotType

/-- The values of a slot. -/
abbrev Value : SlotType → Type
  | text => String
  | number => Nat
  | verification => VerificationResult

end SlotType

/-- A store with at most one value a type. -/
structure Store where
  /-- The value in a slot. -/
  get? : (slot : SlotType) → Option slot.Value

namespace Store

/-- The store without values. -/
def empty : Store := ⟨fun _ => none⟩

/-- Sets what a slot holds. -/
def set (s : Store) (slot : SlotType) (value : Option slot.Value) : Store :=
  ⟨fun other => if h : other = slot then h ▸ value else s.get? other⟩

/-- Puts a value into its slot, in place of any that was there. -/
def insert (s : Store) (slot : SlotType) (value : slot.Value) : Store := s.set slot (some value)

/-- Changes the value in a slot, if there is one. -/
def modify (s : Store) (slot : SlotType) (f : slot.Value → slot.Value) : Store :=
  s.set slot ((s.get? slot).map f)

/-- Empties a slot. -/
def remove (s : Store) (slot : SlotType) : Store := s.set slot none

end Store

/-- The shared context of passes. -/
structure Properties where
  /-- The noise to inject, if any. -/
  noise : Option NoiseModel := none
  /-- Qubits that never receive noise. -/
  immune : OrderedSet Nat := OrderedMap.empty
  /-- Qubits that exist for idle noise; by default all of the circuit. -/
  system : Option (OrderedSet Nat) := none
  /-- What passes reported. -/
  store : Store := .empty

namespace Properties

/-- The outcome of the last verification. -/
def verification? (p : Properties) : Option VerificationResult := p.store.get? .verification

/-- Whether the noise model lets operations of a moment share a qubit. -/
def allowsReuse (p : Properties) : Bool := p.noise.any fun m => m.allowReuse

end Properties

end StabCircuit
