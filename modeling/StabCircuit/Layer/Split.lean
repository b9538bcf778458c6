import StabCircuit.Layer.Basic

/-!
# Splitting a circuit into layers

Every step boundary becomes an empty layer.  Between boundaries an operation
joins the last layer while that is of the same kind and does not touch the same
qubits, and opens a new layer otherwise.
-/

namespace StabCircuit

namespace LayerCircuit

/-- Adds a layer to layers in reverse order, joining it to the last one when possible. -/
def addReversed (layers : List Layer) (l : Layer) : List Layer :=
  match layers with
  | [] => [l]
  | last :: rest =>
    match last.absorb? l with
    | some joined => joined :: rest
    | none => l :: last :: rest

/-- Adds layers one after another. -/
def addManyReversed (layers : List Layer) (more : List Layer) : List Layer :=
  more.foldl addReversed layers

/-- The layer of a two-qubit gate on a pair of qubits. -/
def pairLayer? (g : Gate) (a b : Nat) : Option Layer :=
  match g with
  | .swap => some (.swap [sortedPair a b])
  | .iswap => some (.iswap [sortedPair a b])
  | .czSwap => some (.interactSwap [.make a .z b .z])
  | .controlledSwap => some (.interactSwap [.make a .z b .x])
  | .swapControlled => some (.interactSwap [.make b .z a .x])
  | _ => (Interaction.ofGate? g a b).map fun i => .interact [i]

/-- The layers of a two-qubit gate, one a pair; `none` when a pair has no layer. -/
def pairLayers? (g : Gate) (targets : List Target) : Option (List Layer) :=
  (Target.pairs targets).mapM fun
    | [a, b] => do
      let a ← a.qubit?
      let b ← b.qubit?
      pairLayer? g a b
    | _ => none

/-- The factors of a product. -/
def factorsOf (group : List Target) : List (Nat × Basis) :=
  group.filterMap fun
    | .pauli b q => some (q, b)
    | _ => none

/-- The layers that measure the qubits of an instruction. -/
def measureLayers (i : Instruction) (basis : Basis) : List Layer :=
  i.qubits.map fun q => .measure [⟨q, basis, i.args⟩]

/-- The layers that reset the qubits of an instruction. -/
def resetLayers (i : Instruction) (basis : Basis) : List Layer :=
  i.qubits.map fun q => .reset [(q, basis)]

/-- Takes an instruction of a gate without classical control into layers in reverse order. -/
def addGate (layers : List Layer) (i : Instruction) (g : Gate) : Except CompileError (List Layer) :=
  match g with
  | .tick => .ok (.empty :: layers)
  | .qubitCoords =>
    .ok (addManyReversed layers
      (i.qubits.map fun q => .coords (OrderedMap.ofList [(q, i.args)])))
  | .shiftCoords => .ok (.shift i.args :: layers)
  | .detector | .observableInclude => .ok (addReversed layers (.annotations [i]))
  | .rotate r =>
    .ok (addManyReversed layers (i.qubits.map fun q => .rotation (OrderedMap.ofList [(q, r)])))
  | .reset b => .ok (addManyReversed layers (resetLayers i b))
  | .measure b => .ok (addManyReversed layers (measureLayers i b))
  | .measureReset b =>
    .ok (addManyReversed (addManyReversed layers (measureLayers i b)) (resetLayers i b))
  | .measureProduct =>
    .ok (addManyReversed layers
      ((Target.productGroups i.targets).map fun group => .product [⟨factorsOf group, i.args⟩]))
  | _ =>
    if g.kind.isNoise then .ok (addReversed layers (.noise [i]))
    else
      match pairLayers? g i.targets with
      | some more => .ok (addManyReversed layers more)
      | none => .error (.unsupportedInstruction i)

/-- Takes an instruction into layers in reverse order. -/
def addInstruction (layers : List Layer) (i : Instruction) : Except CompileError (List Layer) :=
  match CompileError.lift (Gate.lookup i.name) with
  | .error e => .error e
  | .ok g =>
    if i.isClassicallyControlled then .ok (addReversed layers (.feedback [i]))
    else addGate layers i g

mutual

/-- Takes an operation into layers in reverse order. -/
def splitOperation (layers : List Layer) : Operation → Except CompileError (List Layer)
  | .instruction i => addInstruction layers i
  | .block count body =>
    match splitAll [] body with
    | .ok inner => .ok (.loop count inner.reverse :: layers)
    | .error e => .error e

/-- Takes operations into layers in reverse order. -/
def splitAll (layers : List Layer) : List Operation → Except CompileError (List Layer)
  | [] => .ok layers
  | op :: rest =>
    match splitOperation layers op with
    | .ok layers => splitAll layers rest
    | .error e => .error e

end

/-- The layers of a circuit. -/
def ofCircuit (c : Circuit) : Except CompileError LayerCircuit := (splitAll [] c).map List.reverse

end LayerCircuit

end StabCircuit
