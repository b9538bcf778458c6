import StabCircuit.Scalar.Basic

/-!
# Rounding and arithmetic

`ofUnits` takes an exact quotient of units to the nearest double, an exact half
going to the even neighbour and results beyond the largest double to infinity.
Addition, subtraction, multiplication and division compute exactly and round
once.
-/

namespace StabCircuit

/-- The natural number nearest to `num / den`, an exact half going to the even one. -/
def roundHalfEven (num den : Nat) : Nat :=
  let q := num / den
  let twice := 2 * (num % den)
  if twice < den then q
  else if den < twice then q + 1
  else q + q % 2

namespace Scalar

/-- The double nearest to `num / den` units, with the given sign. -/
def ofUnits (negative : Bool) (num den : Nat) : Scalar :=
  let s := (num / den).log2 - 52
  ofMagnitude negative (s * fractionCount + roundHalfEven num (den * Nat.pow 2 s))

/-- The double nearest to a whole number. -/
def ofNat (n : Nat) : Scalar := ofUnits false (n * unitsPerOne) 1

/-- The double nearest to an integer. -/
def ofInt (n : Int) : Scalar := ofUnits (decide (n < 0)) (n.natAbs * unitsPerOne) 1

/-- The double nearest to the fraction `num / den`. -/
def ofFraction (negative : Bool) (num den : Nat) : Scalar :=
  ofUnits negative (num * unitsPerOne) den

instance (n : Nat) : OfNat Scalar n := ⟨ofNat n⟩

/-- Exact sum, rounded; a zero sum is negative only when both terms are. -/
def add (x y : Scalar) : Scalar :=
  if x.isNaN then x
  else if y.isNaN then y
  else if x.isInfinite then
    if y.isInfinite && x.negative != y.negative then nan false else x
  else if y.isInfinite then y
  else
    let sum := x.signedUnits + y.signedUnits
    let negative := if sum = 0 then x.negative && y.negative else decide (sum < 0)
    ofUnits negative sum.natAbs 1

/-- Exact difference, rounded. -/
def sub (x y : Scalar) : Scalar := if y.isNaN then x.add y else x.add y.neg

/-- Exact product, rounded. -/
def mul (x y : Scalar) : Scalar :=
  let negative := x.negative != y.negative
  if x.isNaN then x
  else if y.isNaN then y
  else if x.isInfinite || y.isInfinite then
    if x.isZero || y.isZero then nan false else infinity negative
  else ofUnits negative (x.units * y.units) unitsPerOne

/-- Exact quotient, rounded. -/
def div (x y : Scalar) : Scalar :=
  let negative := x.negative != y.negative
  if x.isNaN then x
  else if y.isNaN then y
  else if x.isInfinite then
    if y.isInfinite then nan false else infinity negative
  else if y.isInfinite then ofMagnitude negative 0
  else if y.isZero then
    if x.isZero then nan false else infinity negative
  else ofUnits negative (x.units * unitsPerOne) y.units

instance : Add Scalar := ⟨add⟩
instance : Sub Scalar := ⟨sub⟩
instance : Mul Scalar := ⟨mul⟩
instance : Div Scalar := ⟨div⟩

end Scalar

end StabCircuit
