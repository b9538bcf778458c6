import StabCircuit.Scalar.Rounding
import StabCircuit.Scalar.Printer
import StabCircuit.Support.OrderedMap

/-!
# Planar coordinates

Qubits are named by positions `re + im * i` in the plane.  Coordinates are
ordered canonically: those with an integral real part come first, then by real
part, then by imaginary part.  This order decides how every set of qubits is
written out.
-/

namespace StabCircuit

/-- A position in the plane. -/
structure Coord where
  /-- The horizontal component. -/
  re : Scalar
  /-- The vertical component. -/
  im : Scalar
deriving DecidableEq, Inhabited

namespace Coord

/-- A coordinate with negative zeros folded into zero. -/
def make (re im : Scalar) : Coord := ⟨re + 0, im + 0⟩

/-- Whether the real part has a fractional component; a NaN counts as one. -/
def isFractional (c : Coord) : Bool := !c.re.isIntegral

/-- Canonical comparison: integral real parts first, then by real and imaginary part. -/
def canonicalCompare : Coord → Coord → Ordering :=
  compareLex (compareOn isFractional)
    (compareLex (compareOn fun c => c.re.rank) (compareOn fun c => c.im.rank))

instance : Ord Coord := ⟨canonicalCompare⟩

instance : Std.TransCmp canonicalCompare := by
  unfold canonicalCompare
  infer_instance

instance : Std.TransOrd Coord :=
  inferInstanceAs (Std.TransCmp canonicalCompare)

instance : Std.LawfulEqOrd Coord where
  compare_self := Std.ReflCmp.compare_self
  eq_of_compare {a b} h := by
    change canonicalCompare a b = .eq at h
    simp only [canonicalCompare, compareLex, compareOn, Ordering.then_eq_eq] at h
    obtain ⟨re, im⟩ := a
    obtain ⟨re', im'⟩ := b
    have hre := Scalar.eq_of_rank_eq (Std.LawfulEqOrd.eq_of_compare h.2.1)
    have him := Scalar.eq_of_rank_eq (Std.LawfulEqOrd.eq_of_compare h.2.2)
    subst hre him
    rfl

/-- Componentwise sum. -/
def add (a b : Coord) : Coord := make (a.re + b.re) (a.im + b.im)

/-- Componentwise difference. -/
def sub (a b : Coord) : Coord := make (a.re - b.re) (a.im - b.im)

/-- Both components multiplied by a factor. -/
def scale (c : Coord) (factor : Scalar) : Coord := make (c.re * factor) (c.im * factor)

instance : Add Coord := ⟨add⟩
instance : Sub Coord := ⟨sub⟩

/-- The coordinate as `(re, im)`. -/
def text (c : Coord) : String := "(" ++ c.re.compact ++ ", " ++ c.im.compact ++ ")"

/-- Whether one coordinate comes before or with another in canonical order. -/
def le (a b : Coord) : Bool := (compare a b).isLE

/-- A list in canonical order, repetitions kept. -/
def sort (coords : List Coord) : List Coord := coords.mergeSort le

/-- The distinct coordinates of a list in canonical order. -/
def distinct (coords : List Coord) : List Coord := (OrderedSet.ofList coords).toList

end Coord

end StabCircuit
