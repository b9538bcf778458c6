import StabCircuit.CompileError
import StabCircuit.Layer.Interaction
import StabCircuit.Support.OrderedMap

/-!
# Layers

A layer is a group of operations of one kind that can run in the same step.  A
layer circuit is a list of layers; step boundaries are empty layers.  Detectors,
classically controlled gates and error channels are carried verbatim.
-/

namespace StabCircuit

/-- One single-qubit measurement of a layer. -/
structure MeasureTarget where
  /-- The measured qubit. -/
  qubit : Nat
  /-- The basis. -/
  basis : Basis
  /-- The arguments of the instruction. -/
  args : List Scalar
deriving DecidableEq

/-- One measured product of a layer. -/
structure MeasuredProduct where
  /-- The factors in the order written. -/
  factors : List (Nat × Basis)
  /-- The arguments of the instruction. -/
  args : List Scalar
deriving DecidableEq

/-- A group of operations of one kind. -/
inductive Layer where
  /-- Nothing; a step boundary. -/
  | empty
  /-- Single-qubit rotations by qubit. -/
  | rotation (rotations : OrderedMap Nat Rotation)
  /-- Controlled Paulis. -/
  | interact (interactions : List Interaction)
  /-- Swaps of ascending pairs. -/
  | swap (pairs : List (Nat × Nat))
  /-- Swaps with a phase, of ascending pairs. -/
  | iswap (pairs : List (Nat × Nat))
  /-- Controlled Paulis, each followed by a swap of its qubits. -/
  | interactSwap (interactions : List Interaction)
  /-- Resets in the order written. -/
  | reset (resets : List (Nat × Basis))
  /-- Single-qubit measurements in the order written. -/
  | measure (targets : List MeasureTarget)
  /-- Measurements of products in the order written. -/
  | product (products : List MeasuredProduct)
  /-- Positions of qubits. -/
  | coords (positions : OrderedMap Nat (List Scalar))
  /-- A shift of detector coordinates. -/
  | shift (offset : List Scalar)
  /-- Detectors and observables. -/
  | annotations (instructions : List Instruction)
  /-- Classically controlled gates. -/
  | feedback (instructions : List Instruction)
  /-- Error channels. -/
  | noise (instructions : List Instruction)
  /-- Layers repeated a number of times. -/
  | loop (count : Nat) (body : List Layer)
deriving Inhabited

/-- A list of layers. -/
abbrev LayerCircuit : Type := List Layer

namespace Layer

/-- The name of the kind of layer. -/
def kindName : Layer → String
  | empty => "empty"
  | rotation _ => "rotation"
  | interact _ => "interact"
  | swap _ => "swap"
  | iswap _ => "iswap"
  | interactSwap _ => "interact_swap"
  | reset _ => "reset"
  | measure _ => "measure"
  | product _ => "mpp"
  | coords _ => "qubit_coords"
  | shift _ => "shift_coords"
  | annotations _ => "det_obs"
  | feedback _ => "feedback"
  | noise _ => "noise"
  | loop _ _ => "loop"

mutual

/-- The qubit slots that a layer uses, with repetitions. -/
def slots : Layer → List Nat
  | empty | coords _ | shift _ | annotations _ => []
  | rotation rotations => rotations.keys
  | interact interactions | interactSwap interactions => interactions.flatMap fun i => [i.a, i.b]
  | swap pairs | iswap pairs => pairs.flatMap fun p => [p.1, p.2]
  | reset resets => resets.map (·.1)
  | measure targets => targets.map MeasureTarget.qubit
  | product products => products.flatMap fun p => p.factors.map (·.1)
  | feedback instructions | noise instructions => instructions.flatMap Instruction.qubits
  | loop _ body => allSlots body

/-- The qubit slots that layers use, with repetitions. -/
def allSlots : List Layer → List Nat
  | [] => []
  | l :: rest => slots l ++ allSlots rest

end

/-- The qubits that a layer reads or writes. -/
def touched (l : Layer) : OrderedSet Nat := OrderedSet.ofList l.slots

/-- Whether no qubit is touched twice; layers carried verbatim and loops are not examined. -/
def isDisjoint : Layer → Bool
  | feedback _ | noise _ | loop _ _ => true
  | l => l.slots.length == l.touched.size

mutual

/-- Whether a layer does nothing. -/
def isVacuous : Layer → Bool
  | empty => true
  | rotation rotations => rotations.values.all Rotation.isIdentity
  | interact v | interactSwap v => v.isEmpty
  | swap v | iswap v => v.isEmpty
  | reset v => v.isEmpty
  | measure v => v.isEmpty
  | product v => v.isEmpty
  | coords v => v.isEmpty
  | shift v => v.isEmpty
  | annotations v | feedback v | noise v => v.isEmpty
  | loop count body => count == 0 || allVacuous body

/-- Whether every layer does nothing. -/
def allVacuous : List Layer → Bool
  | [] => true
  | l :: rest => isVacuous l && allVacuous rest

end

/-- Whether a step boundary must separate the layer from earlier work. -/
def needsTickBefore : Layer → Bool
  | empty | coords _ | shift _ | annotations _ | feedback _ | noise _ => false
  | _ => true

/-- Whether later work must be separated from the layer by a step boundary. -/
def needsTickAfter : Layer → Bool
  | empty | coords _ | shift _ | annotations _ | noise _ | loop _ _ => false
  | _ => true

/-- The two layers as one, when they are of the same kind and touch different qubits. -/
def absorb? (l other : Layer) : Option Layer :=
  if l.slots.any fun q => other.slots.contains q then none
  else
    match l, other with
    | rotation a, rotation b => some (rotation (a.insertAll b.entries))
    | interact a, interact b => some (interact (a ++ b))
    | interactSwap a, interactSwap b => some (interactSwap (a ++ b))
    | swap a, swap b => some (swap (a ++ b))
    | iswap a, iswap b => some (iswap (a ++ b))
    | reset a, reset b => some (reset (a ++ b))
    | measure a, measure b => some (measure (a ++ b))
    | product a, product b => some (product (a ++ b))
    | coords a, coords b =>
      if b.keys.all fun q => !a.contains q then some (coords (a.insertAll b.entries)) else none
    | annotations a, annotations b => some (annotations (a ++ b))
    | feedback a, feedback b => some (feedback (a ++ b))
    | noise a, noise b => some (noise (a ++ b))
    | _, _ => none

/-- Numeric equality of instruction lists. -/
def numEqInstructions : List Instruction → List Instruction → Bool
  | [], [] => true
  | i :: is, j :: js => i.numEq j && numEqInstructions is js
  | _, _ => false

/-- Numeric equality of measurement lists. -/
def numEqMeasures : List MeasureTarget → List MeasureTarget → Bool
  | [], [] => true
  | s :: ss, t :: ts =>
    s.qubit == t.qubit && s.basis == t.basis && Scalar.listNumEq s.args t.args &&
      numEqMeasures ss ts
  | _, _ => false

/-- Numeric equality of product lists. -/
def numEqProducts : List MeasuredProduct → List MeasuredProduct → Bool
  | [], [] => true
  | s :: ss, t :: ts =>
    s.factors == t.factors && Scalar.listNumEq s.args t.args && numEqProducts ss ts
  | _, _ => false

/-- Numeric equality of position tables. -/
def numEqPositions : List (Nat × List Scalar) → List (Nat × List Scalar) → Bool
  | [], [] => true
  | s :: ss, t :: ts => s.1 == t.1 && Scalar.listNumEq s.2 t.2 && numEqPositions ss ts
  | _, _ => false

mutual

/-- Equality of layers, arguments compared as numbers. -/
def numEq : Layer → Layer → Bool
  | empty, empty => true
  | rotation a, rotation b => a == b
  | interact a, interact b => a == b
  | swap a, swap b => a == b
  | iswap a, iswap b => a == b
  | interactSwap a, interactSwap b => a == b
  | reset a, reset b => a == b
  | measure a, measure b => numEqMeasures a b
  | product a, product b => numEqProducts a b
  | coords a, coords b => numEqPositions a.entries b.entries
  | shift a, shift b => Scalar.listNumEq a b
  | annotations a, annotations b => numEqInstructions a b
  | feedback a, feedback b => numEqInstructions a b
  | noise a, noise b => numEqInstructions a b
  | loop m a, loop n b => m == n && numEqAll a b
  | _, _ => false

/-- Equality of layer circuits, arguments compared as numbers. -/
def numEqAll : List Layer → List Layer → Bool
  | [], [] => true
  | a :: as, b :: bs => numEq a b && numEqAll as bs
  | _, _ => false

end

end Layer

namespace LayerCircuit

/-- Every qubit that any layer touches. -/
def touched (ls : LayerCircuit) : OrderedSet Nat := OrderedSet.ofList (Layer.allSlots ls)

mutual

/-- Fails when a layer touches a qubit twice, inside loops too. -/
def checkLayer : Layer → Except CompileError Unit
  | .loop _ body => checkDisjoint body
  | l =>
    if l.isDisjoint then .ok ()
    else .error (.overlappingLayer l.kindName l.touched.toList)

/-- Fails at the first layer that touches a qubit twice. -/
def checkDisjoint : List Layer → Except CompileError Unit
  | [] => .ok ()
  | l :: rest =>
    match checkLayer l with
    | .ok () => checkDisjoint rest
    | .error e => .error e

end

end LayerCircuit

end StabCircuit
