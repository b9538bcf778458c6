import StabCircuit.Scalar.Basic

/-!
# Shortest decimals

The fewest decimal digits that still read back as a given double.  The reals
that round to a double form an interval; for one digit, two digits and so on the
two decimals of that many digits next to the value are tested against it with
exact arithmetic.  Of two hits the nearer one is taken, and on a tie the larger.
-/

namespace StabCircuit

namespace Scalar

/-- A decimal `coefficient * 10 ^ (exponent - decimalOffset)`. -/
structure Decimal where
  /-- The digits. -/
  coefficient : Nat
  /-- The power of ten, moved up by `decimalOffset`. -/
  exponent : Nat
deriving DecidableEq, Repr

/-- Powers of ten are counted from `10 ^ (-400)`, below every double's last digit. -/
def decimalOffset : Nat := 400

/-- Twice the units of a scalar, and of the ends of the interval that rounds to it. -/
structure Neighbourhood where
  /-- Twice the lower end. -/
  low : Nat
  /-- Twice the value. -/
  centre : Nat
  /-- Twice the upper end. -/
  high : Nat
  /-- Whether the ends themselves round to the value. -/
  closed : Bool

/-- The reals that round to a positive finite scalar. -/
def neighbourhood (x : Scalar) : Neighbourhood :=
  let step := Nat.pow 2 x.shift
  let below := if x.significand = fractionCount ∧ 0 < x.shift then step / 2 else step
  { low := 2 * x.units - below
    centre := 2 * x.units
    high := 2 * x.units + step
    closed := x.significand % 2 == 0 }

/-- Whether `num / den` lies in a neighbourhood, both in doubled units. -/
def Neighbourhood.contains (n : Neighbourhood) (num den : Nat) : Bool :=
  if n.closed then decide (n.low * den ≤ num) && decide (num ≤ n.high * den)
  else decide (n.low * den < num) && decide (num < n.high * den)

/-- Tries the decimals with exponent `e` on both sides of the value. -/
def decimalAt? (n : Neighbourhood) (e : Nat) : Option Decimal :=
  let den := Nat.pow 10 decimalOffset
  let grid := Nat.pow 10 e * (2 * unitsPerOne)
  let down := n.centre * den / grid
  let up := down + 1
  let downIn := n.contains (down * grid) den
  let upIn := n.contains (up * grid) den
  let upNearer := decide (up * grid - n.centre * den ≤ n.centre * den - down * grid)
  if downIn && !(upIn && upNearer) then some ⟨down, e⟩
  else if upIn then some ⟨up, e⟩
  else none

/-- The first hit among exponents `e`, `e - 1`, ... over `tries` attempts. -/
def firstDecimal (n : Neighbourhood) (e : Nat) : Nat → Decimal
  | 0 => ⟨n.centre * Nat.pow 10 decimalOffset / (Nat.pow 10 e * (2 * unitsPerOne)), e⟩
  | tries + 1 =>
    match decimalAt? n e with
    | some d => d
    | none => firstDecimal n (e - 1) tries

/-- The number of decimal digits of a natural number. -/
def digitCount (n : Nat) : Nat := (Nat.toDigits 10 n).length

/-- The shortest decimal that reads back as a positive finite scalar. -/
def shortest (x : Scalar) : Decimal :=
  let leading := digitCount (x.units * Nat.pow 10 decimalOffset / unitsPerOne) - 1
  let d := firstDecimal x.neighbourhood leading 17
  if d.coefficient % 10 = 0 then ⟨d.coefficient / 10, d.exponent + 1⟩ else d

end Scalar

end StabCircuit
