import StabCircuit.Layer.Basic

/-!
# Local optimization of layers

Neighbouring layers are fused in one pass with a stack: rotations compose and
cancel, rotations before a reset vanish, an interaction and a swap of the same
pairs become one layer, and layers of one kind on different qubits share a step.
-/

namespace StabCircuit

namespace Layer

/-- Whether interactions and swaps act on the same pairs, each pair once. -/
def samePairs (interactions : List Interaction) (swaps : List (Nat × Nat)) : Bool :=
  let a := (interactions.map Interaction.pair).mergeSort natPairLe
  let b := (swaps.map fun p => sortedPair p.1 p.2).mergeSort natPairLe
  a == b && decide a.Nodup

/-- Rotations followed by rotations, without those that cancel. -/
def composeRotations (a b : OrderedMap Nat Rotation) : OrderedMap Nat Rotation :=
  let combined := b.entries.foldl
    (fun m (q, r) => m.alter q fun
      | some first => some (first.andThen r)
      | none => some r) a
  combined.filter fun _ r => !r.isIdentity

/-- Sum of two shifts, the shorter one filled up with zeros. -/
def addShifts : List Scalar → List Scalar → List Scalar
  | [], b => b.map fun y => 0 + y
  | a, [] => a
  | x :: a, y :: b => (x + y) :: addShifts a b

/-- Both layers, joined when one kind can share a step. -/
def joinOrKeep (l next : Layer) : List Layer :=
  match l.absorb? next with
  | some joined => [joined]
  | none => [l, next]

/-- A layer fused with the one after it, before vacuous results are dropped. -/
def fuse : Layer → Layer → List Layer
  | l, empty => [l]
  | empty, next => [next]
  | rotation a, rotation b => [rotation (composeRotations a b)]
  | rotation a, reset resets =>
    [rotation (resets.foldl (fun m entry => m.erase entry.1) a), reset resets]
  | interact interactions, swap swaps =>
    if samePairs interactions swaps then [interactSwap interactions]
    else joinOrKeep (interact interactions) (swap swaps)
  | swap swaps, interact interactions =>
    if samePairs interactions swaps then
      [interactSwap (interactions.map Interaction.exchangeQubits)]
    else joinOrKeep (swap swaps) (interact interactions)
  | shift a, shift b => [shift (addShifts a b)]
  | loop count body, next => [loop count body, next]
  | l, next => joinOrKeep l next

/-- A layer fused with the one after it: one layer, both, or none when nothing is left. -/
def fusedWith (l next : Layer) : List Layer := (fuse l next).filter fun l => !l.isVacuous

end Layer

namespace LayerCircuit

/-- Puts a layer on a stack: fused with the top, and vacuous layers on top dropped. -/
def pushFused (stack : List Layer) (l : Layer) : List Layer :=
  let pushed := match stack with
    | [] => [l]
    | top :: rest => (top.fusedWith l).reverse ++ rest
  pushed.dropWhile Layer.isVacuous

mutual

/-- A layer with the body of a loop optimized. -/
def optimizeLayer : Layer → Layer
  | .loop count body => .loop count (optimizeFrom [] body).reverse
  | l => l

/-- Puts layers on a stack one after another. -/
def optimizeFrom (stack : List Layer) : List Layer → List Layer
  | [] => stack
  | l :: rest => optimizeFrom (pushFused stack (optimizeLayer l)) rest

end

/-- The layers with neighbours fused where possible. -/
def optimized (layers : LayerCircuit) : LayerCircuit := (optimizeFrom [] layers).reverse

end LayerCircuit

end StabCircuit
