import StabCircuit.Layer.Fusion
import StabCircuit.Layer.Materialize
import StabCircuit.Layer.Split

/-!
# Z-basis form

Layers are rewritten so that resets, measurements and interactions all act in the
Z basis, with rotations before and after that change the basis.
-/

namespace StabCircuit

namespace Layer

/-- The rotations that take bases to Z; the last entry of a qubit wins. -/
def rotationsToZ (entries : List (Nat × Basis)) : Layer :=
  rotation <| OrderedMap.ofList <|
    (entries.filter fun entry => entry.2 != .z).map fun entry => (entry.1, Rotation.toZ entry.2)

end Layer

namespace LayerCircuit

mutual

/-- The Z-basis form of a layer. -/
def layerToZ : Layer → List Layer
  | .interact interactions =>
    if interactions.all Interaction.isZ then [.interact interactions]
    else
      let change := Layer.rotationsToZ (interactions.flatMap Interaction.sides)
      [change, .interact (interactions.map Interaction.toZ), change]
  | .interactSwap interactions =>
    if interactions.all Interaction.isZ then [.interactSwap interactions]
    else
      [Layer.rotationsToZ (interactions.flatMap Interaction.sides),
        .interactSwap (interactions.map Interaction.toZ),
        Layer.rotationsToZ (interactions.flatMap Interaction.exchangedSides)]
  | .reset resets =>
    if resets.all fun entry => entry.2 == .z then [.reset resets]
    else [.reset (resets.map fun entry => (entry.1, .z)), Layer.rotationsToZ resets]
  | .measure targets =>
    if targets.all fun t => t.basis == .z then [.measure targets]
    else
      let change := Layer.rotationsToZ (targets.map fun t => (t.qubit, t.basis))
      [change, .measure (targets.map fun t => { t with basis := .z }), change]
  | .product products =>
    if products.all fun p => p.factors.all fun factor => factor.2 == .z then [.product products]
    else
      let change := Layer.rotationsToZ (products.flatMap MeasuredProduct.factors)
      [change,
        .product (products.map fun p =>
          { p with factors := p.factors.map fun factor => (factor.1, .z) }),
        change]
  | .loop count body => [.loop count (toZ body)]
  | l => [l]

/-- The Z-basis form of a list of layers. -/
def toZ : List Layer → List Layer
  | [] => []
  | l :: rest => layerToZ l ++ toZ rest

end

/-- A circuit rewritten to Z-basis resets, measurements and interactions. -/
def zBasisCircuit (c : Circuit) : Except CompileError Circuit := do
  let layers ← ofCircuit c
  let rewritten := optimized (toZ layers)
  checkDisjoint rewritten
  return toCircuit rewritten

end LayerCircuit

end StabCircuit
