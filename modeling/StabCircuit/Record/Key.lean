import StabCircuit.Coord

/-!
# Measurement keys

A measurement result, or a group of results, is referred to by a key that the
caller chooses: a free name, a position, or another key qualified by the layer
it was measured in.
-/

namespace StabCircuit

/-- A name for a measurement result or a group of results. -/
inductive Key where
  /-- A free-form name. -/
  | name (text : String)
  /-- A qubit position. -/
  | coord (position : Coord)
  /-- A key qualified by a layer label. -/
  | atLayer (key : Key) (layer : String)
deriving DecidableEq, Inhabited

namespace Key

/-- The key as text: the name, the position, or the inner key, `@` and the layer. -/
def text : Key → String
  | name t => t
  | coord c => c.text
  | atLayer key layer => key.text ++ "@" ++ layer

end Key

end StabCircuit
