import StabCircuit.Scalar.Shortest

/-!
# Scalars as text

Numbers are written positionally with the fewest digits that read back, never
with an exponent.  The compact form writes whole numbers below `10 ^ 15`,
negative zero included, as integers without a sign on zero.
-/

namespace StabCircuit

namespace Scalar

/-- A decimal written out positionally. -/
def Decimal.positional (d : Decimal) : String :=
  let digits := Nat.toDigits 10 d.coefficient
  if decimalOffset ≤ d.exponent then
    String.ofList (digits ++ List.replicate (d.exponent - decimalOffset) '0')
  else
    let places := decimalOffset - d.exponent
    if places < digits.length then
      let whole := digits.length - places
      String.ofList (digits.take whole ++ '.' :: digits.drop whole)
    else
      String.ofList ('0' :: '.' :: List.replicate (places - digits.length) '0' ++ digits)

/-- The shortest positional text that reads back, with the sign of a negative zero. -/
def plain (x : Scalar) : String :=
  if x.isNaN then "NaN"
  else
    let sign := if x.negative then "-" else ""
    if x.isInfinite then sign ++ "inf"
    else if x.isZero then sign ++ "0"
    else sign ++ x.shortest.positional

/-- The text used in circuits: whole numbers below `10 ^ 15` as integers, all else `plain`. -/
def compact (x : Scalar) : String :=
  let whole := x.units / unitsPerOne
  if x.isFinite && x.isIntegral && decide (whole < Nat.pow 10 15) then
    let sign := if x.negative && whole != 0 then "-" else ""
    sign ++ String.ofList (Nat.toDigits 10 whole)
  else x.plain

end Scalar

end StabCircuit
