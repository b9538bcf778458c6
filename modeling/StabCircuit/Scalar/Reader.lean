import StabCircuit.Scalar.Rounding
import StabCircuit.Scalar.Shortest
import StabCircuit.Text.Integer

/-!
# Reading scalars

The grammar is an optional sign followed by `inf`, `infinity` or `nan` in any
case, or by decimal digits with an optional point (at least one digit in all)
and an optional exponent.  The value is the double nearest to the decimal.
-/

namespace StabCircuit

namespace Scalar

/-- The double nearest to `coefficient * 10 ^ exponent`. -/
def ofDecimal (negative : Bool) (coefficient : Nat) (exponent : Int) : Scalar :=
  let size := (digitCount coefficient : Int) + exponent
  if coefficient = 0 ∨ size < -400 then ofMagnitude negative 0
  else if 400 < size then infinity negative
  else if 0 ≤ exponent then ofFraction negative (coefficient * Nat.pow 10 exponent.toNat) 1
  else ofFraction negative coefficient (Nat.pow 10 (-exponent).toNat)

/-- Reads the part after the digits: nothing, or an exponent mark, a sign and digits. -/
def exponent? : List Char → Option Int
  | [] => some 0
  | mark :: rest =>
    if mark = 'e' ∨ mark = 'E' then
      match rest with
      | '-' :: digits => (Text.digits? digits).map fun n => -(n : Int)
      | '+' :: digits => (Text.digits? digits).map fun n => (n : Int)
      | digits => (Text.digits? digits).map fun n => (n : Int)
    else none

/-- Reads an unsigned decimal. -/
def unsigned? (negative : Bool) (text : List Char) : Option Scalar :=
  let whole := text.takeWhile Char.isDigit
  let afterWhole := text.dropWhile Char.isDigit
  let (fraction, rest) := match afterWhole with
    | '.' :: tail => (tail.takeWhile Char.isDigit, tail.dropWhile Char.isDigit)
    | _ => ([], afterWhole)
  if whole.isEmpty && fraction.isEmpty then none
  else (exponent? rest).map fun e =>
    ofDecimal negative (Text.ofDigits (whole ++ fraction)) (e - fraction.length)

/-- Reads what follows the sign. -/
def afterSign? (negative : Bool) (text : List Char) : Option Scalar :=
  let lower := String.ofList (text.map Char.toLower)
  if lower = "inf" ∨ lower = "infinity" then some (infinity negative)
  else if lower = "nan" then some (nan negative)
  else unsigned? negative text

/-- Reads a scalar. -/
def read? (text : List Char) : Option Scalar :=
  match text with
  | '-' :: rest => afterSign? true rest
  | '+' :: rest => afterSign? false rest
  | _ => afterSign? false text

end Scalar

end StabCircuit
