import StabCircuit.Layer.Basic

/-!
# Writing layers as a circuit

Within a layer, gates of the same name are written together in ascending order
of their qubits; resets and measurements keep their order.  Step boundaries are
inserted where layers need them, and the body of a loop ends with one.
-/

namespace StabCircuit

namespace Layer

/-- Adds a value to the group of a name. -/
def addToGroup {α : Type} (groups : OrderedMap String (List α)) (name : String) (value : α) :
    OrderedMap String (List α) :=
  groups.alter name fun old => some (old.getD [] ++ [value])

/-- A two-qubit instruction over pairs in ascending order. -/
def pairInstruction (name : String) (pairs : List (Nat × Nat)) : Instruction :=
  { name
    targets := (pairs.mergeSort natPairLe).flatMap fun p => [.qubit p.1, .qubit p.2]
    args := [] }

/-- A two-qubit instruction, or none when there are no pairs. -/
def pairInstructions (name : String) (pairs : List (Nat × Nat)) : List Instruction :=
  if pairs.isEmpty then [] else [pairInstruction name pairs]

/-- Pairs grouped by gate name, the names ascending. -/
def groupedPairs (entries : List (String × (Nat × Nat))) : List Instruction :=
  let groups := entries.foldl (fun groups (name, pair) => addToGroup groups name pair)
    OrderedMap.empty
  groups.entries.map fun (name, pairs) => pairInstruction name pairs

/-- The instructions of interactions. -/
def interactionInstructions (interactions : List Interaction) : List Instruction :=
  groupedPairs (interactions.map fun i => (i.gate.name, i.operands))

/-- The single gate for an interaction followed by a swap, where there is one. -/
def fusedSwap? (i : Interaction) : Option Gate :=
  match i.gate with
  | .controlled .z .z => some .czSwap
  | .controlled .z .x => some .controlledSwap
  | _ => none

/-- The instructions of interactions followed by swaps; those without a single gate are written
apart, their swaps in a step of their own. -/
def interactSwapInstructions (interactions : List Interaction) : List Instruction :=
  let fused := interactions.filterMap fun i => (fusedSwap? i).map fun g => (g.name, i.operands)
  let apart := interactions.filter fun i => (fusedSwap? i).isNone
  groupedPairs fused ++
    if apart.isEmpty then []
    else
      interactionInstructions apart ++ [Instruction.tick] ++
        pairInstructions Gate.swap.name (apart.map Interaction.pair)

/-- The instructions of rotations, grouped by gate name; the identity is not written. -/
def rotationInstructions (rotations : OrderedMap Nat Rotation) : List Instruction :=
  let moving := rotations.entries.filter fun entry => !entry.2.isIdentity
  let groups := moving.foldl (fun groups (q, r) => addToGroup groups r.name q) OrderedMap.empty
  groups.entries.map fun (name, qubits) => { name, targets := qubits.map .qubit, args := [] }

/-- The instruction that measures a product. -/
def productInstruction (p : MeasuredProduct) : Instruction :=
  { name := Gate.measureProduct.name
    targets := Target.joinProduct (p.factors.map fun (q, b) => .pauli b q)
    args := p.args }

/-- The instructions of a layer that is no loop. -/
def instructions : Layer → List Instruction
  | empty => []
  | rotation rotations => rotationInstructions rotations
  | interact interactions => interactionInstructions interactions
  | swap pairs => pairInstructions Gate.swap.name pairs
  | iswap pairs => pairInstructions Gate.iswap.name pairs
  | interactSwap interactions => interactSwapInstructions interactions
  | reset resets => resets.map fun (q, b) => .onQubits (.reset b) [q] []
  | measure targets => targets.map fun t => .onQubits (.measure t.basis) [t.qubit] t.args
  | product products => products.map productInstruction
  | coords positions => positions.entries.map fun (q, args) => .onQubits .qubitCoords [q] args
  | shift offset => [{ name := Gate.shiftCoords.name, targets := [], args := offset }]
  | annotations instructions | feedback instructions | noise instructions => instructions
  | loop _ _ => []

end Layer

namespace LayerCircuit

mutual

/-- Writes a layer after operations in reverse order. -/
def writeLayer (done : List Operation) : Layer → List Operation
  | .loop count body =>
    let inner : Circuit := (writeAll [] false body).reverse
    Circuit.addReversed done (.block count inner.tick)
  | l => l.instructions.foldl Circuit.pushReversed done

/-- Writes layers after operations in reverse order.  `owed` tells whether a step boundary has to
come before the next layer that needs one. -/
def writeAll (done : List Operation) (owed : Bool) : List Layer → List Operation
  | [] => done
  | l :: rest =>
    if l.isVacuous then writeAll done owed rest
    else
      let ticks := owed && l.needsTickBefore
      let done := if ticks then Circuit.pushReversed done .tick else done
      writeAll (writeLayer done l) ((owed && !ticks) || l.needsTickAfter) rest

end

/-- The circuit of a list of layers. -/
def toCircuit (layers : LayerCircuit) : Circuit := (writeAll [] false layers).reverse

end LayerCircuit

/-- The circuit of a single layer. -/
def Layer.toCircuit (l : Layer) : Circuit := (LayerCircuit.writeLayer [] l).reverse

end StabCircuit
