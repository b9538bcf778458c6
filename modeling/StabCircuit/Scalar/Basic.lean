/-!
# Double-precision numbers

A `Scalar` is an IEEE 754 double given by its sign bit and by its other 63 bits
read as one number, the magnitude.  Magnitudes of numbers ascend with their
absolute values, so every comparison is a comparison of integers.  A finite
scalar is a whole number of *units* of `2 ^ (-1074)`, the smallest positive
double; arithmetic is exact in units and then rounded.
-/

namespace StabCircuit

/-- An IEEE 754 double: a sign and the remaining 63 bits as a number. -/
structure Scalar where
  /-- The sign bit. -/
  negative : Bool
  /-- Exponent and fraction bits, read as one number. -/
  magnitude : Nat
  /-- The magnitude has 63 bits. -/
  magnitude_lt : magnitude < Nat.pow 2 63
deriving DecidableEq

namespace Scalar

/-- The number of fraction values that share an exponent. -/
def fractionCount : Nat := Nat.pow 2 52

/-- The magnitude of infinity; every larger magnitude is a NaN. -/
def infinityMagnitude : Nat := 2047 * Nat.pow 2 52

/-- The binary places after the point: a unit is `2 ^ (-places)`. -/
def places : Nat := 1074

/-- The number of units in the number one. -/
def unitsPerOne : Nat := Nat.pow 2 places

/-- The scalar of a sign and magnitude, a too large magnitude giving infinity. -/
def ofMagnitude (negative : Bool) (magnitude : Nat) : Scalar where
  negative := negative
  magnitude := min magnitude infinityMagnitude
  magnitude_lt := Nat.lt_of_le_of_lt (Nat.min_le_right ..) (by decide)

/-- Positive zero. -/
def zero : Scalar := ofMagnitude false 0

instance : Inhabited Scalar := ⟨zero⟩

/-- An infinity of a given sign. -/
def infinity (negative : Bool) : Scalar := ofMagnitude negative infinityMagnitude

/-- A quiet NaN of a given sign. -/
def nan (negative : Bool) : Scalar := ⟨negative, 4095 * Nat.pow 2 51, by decide⟩

/-- Whether the scalar is not a number. -/
def isNaN (x : Scalar) : Bool := decide (infinityMagnitude < x.magnitude)

/-- Whether the scalar is neither infinite nor a NaN. -/
def isFinite (x : Scalar) : Bool := decide (x.magnitude < infinityMagnitude)

/-- Whether the scalar is an infinity. -/
def isInfinite (x : Scalar) : Bool := decide (x.magnitude = infinityMagnitude)

/-- Whether the scalar is a zero of either sign. -/
def isZero (x : Scalar) : Bool := decide (x.magnitude = 0)

/-- The whole number of units per step between neighbours of this exponent, as a power of two. -/
def shift (x : Scalar) : Nat := x.magnitude / fractionCount - 1

/-- The significand; the absolute value is `significand * 2 ^ shift` units. -/
def significand (x : Scalar) : Nat :=
  if x.magnitude < fractionCount then x.magnitude
  else fractionCount + x.magnitude % fractionCount

/-- The absolute value of a finite scalar in units. -/
def units (x : Scalar) : Nat := x.significand * Nat.pow 2 x.shift

/-- The value of a finite scalar in units, with its sign. -/
def signedUnits (x : Scalar) : Int := if x.negative then -x.units else x.units

/-- Position on the number line: ascends with the value, equal for the two zeros. -/
def position (x : Scalar) : Int := if x.negative then -x.magnitude else x.magnitude

/-- Position in the total order on bit patterns: negative NaNs, numbers with `-0` before `0`,
positive NaNs. -/
def rank (x : Scalar) : Int := if x.negative then -x.magnitude - 1 else x.magnitude

/-- Numeric equality: NaN differs from everything, the two zeros are equal. -/
def numEq (x y : Scalar) : Bool := !x.isNaN && !y.isNaN && x.position == y.position

/-- Numeric strict order, false when either side is NaN. -/
def numLt (x y : Scalar) : Bool := !x.isNaN && !y.isNaN && decide (x.position < y.position)

/-- Numeric order, false when either side is NaN. -/
def numLe (x y : Scalar) : Bool := !x.isNaN && !y.isNaN && decide (x.position ≤ y.position)

/-- Numeric equality of argument lists, entry by entry. -/
def listNumEq : List Scalar → List Scalar → Bool
  | [], [] => true
  | x :: xs, y :: ys => x.numEq y && listNumEq xs ys
  | _, _ => false

/-- The smaller number; a NaN loses against a number. -/
def numMin (x y : Scalar) : Scalar :=
  if x.isNaN then y else if y.isNaN then x else if y.numLt x then y else x

/-- The larger number; a NaN loses against a number. -/
def numMax (x y : Scalar) : Scalar :=
  if x.isNaN then y else if y.isNaN then x else if x.numLt y then y else x

/-- Whether the scalar equals its integral part: infinities do, and finite scalars whose
significand has no bits after the point. -/
def isIntegral (x : Scalar) : Bool :=
  x.isInfinite || (x.isFinite && x.significand % Nat.pow 2 (places - x.shift) == 0)

/-- The scalar with its sign flipped. -/
def neg (x : Scalar) : Scalar := { x with negative := !x.negative }

/-- Equal ranks mean equal bits. -/
theorem eq_of_rank_eq {x y : Scalar} (h : x.rank = y.rank) : x = y := by
  obtain ⟨nx, mx, hx⟩ := x
  obtain ⟨ny, my, hy⟩ := y
  cases nx <;> cases ny <;> simp only [rank, Bool.false_eq_true, if_false, if_true] at h
  · congr; omega
  · omega
  · omega
  · congr; omega

end Scalar

end StabCircuit
