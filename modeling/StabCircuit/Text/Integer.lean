/-!
# Decimal integers in text

Readers for whole numbers and integers within bounds: an optional sign, then
decimal digits only, at least one.  A value outside the bounds is refused.
-/

namespace StabCircuit

namespace Text

/-- The number that a run of decimal digits stands for. -/
def ofDigits (digits : List Char) : Nat :=
  digits.foldl (fun n c => 10 * n + (c.toNat - 48)) 0

/-- Reads a non-empty run of decimal digits. -/
def digits? (text : List Char) : Option Nat :=
  if !text.isEmpty && text.all Char.isDigit then some (ofDigits text) else none

/-- Reads a whole number below `bound`, with an optional plus sign. -/
def natBelow? (bound : Nat) (text : List Char) : Option Nat :=
  let body := match text with
    | '+' :: rest => rest
    | _ => text
  (digits? body).filter (· < bound)

/-- Reads an integer from `-half` up to but not including `half`, with an optional sign. -/
def intWithin? (half : Nat) (text : List Char) : Option Int :=
  match text with
  | '-' :: rest => (digits? rest).bind fun n => if n ≤ half then some (-(n : Int)) else none
  | _ => (natBelow? half text).map fun n => (n : Int)

/-- The number of values of a 32-bit word: qubit and sweep indices stay below it. -/
def wordSize : Nat := Nat.pow 2 32

/-- The number of values of a 64-bit word: repetition counts and counts of results stay below it. -/
def longSize : Nat := Nat.pow 2 64

/-- The bound of signed 32-bit words: record offsets lie between minus this number and it. -/
def halfWord : Nat := Nat.pow 2 31

/-- The bound of signed 64-bit words. -/
def halfLong : Nat := Nat.pow 2 63

end Text

end StabCircuit
