import StabCircuit.Error

/-!
# Bounding boxes

The smallest box around coordinates, with a fallback for none.
-/

namespace StabCircuit

namespace Coord

/-- The corners of the smallest box that holds a first coordinate and others. -/
def boundsFrom (first : Coord) (rest : List Coord) : Coord × Coord :=
  rest.foldl
    (fun (low, high) c =>
      (make (low.re.numMin c.re) (low.im.numMin c.im),
        make (high.re.numMax c.re) (high.im.numMax c.im)))
    (first, first)

/-- The corners of the smallest box that holds coordinates.  Without coordinates both corners are
the fallback, and it is an error when there is none. -/
def bounds (coords : List Coord) (fallback : Option Coord) : Except CircuitError (Coord × Coord) :=
  match coords, fallback with
  | first :: rest, _ => .ok (boundsFrom first rest)
  | [], some c => .ok (c, c)
  | [], none => .error (.invalidArgument .emptyBounds)

end Coord

end StabCircuit
