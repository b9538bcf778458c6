import StabCircuit.Json.Basic
import StabCircuit.Scalar.Reader

/-!
# Reading JSON

A strict reader of the JSON grammar: blanks are space, tab, line feed and
carriage return; texts hold no raw control characters and no lone surrogates.
-/

namespace StabCircuit

namespace Json

/-- Whether a character may stand between tokens. -/
def isGap (c : Char) : Bool := c == ' ' || c == '\t' || c == '\n' || c == '\r'

/-- Drops the gap at the front. -/
def skipGap (text : List Char) : List Char := text.dropWhile isGap

/-- The value of a hexadecimal digit. -/
def hexValue? (c : Char) : Option Nat :=
  if '0' ≤ c ∧ c ≤ '9' then some (c.toNat - 48)
  else if 'a' ≤ c ∧ c ≤ 'f' then some (c.toNat - 87)
  else if 'A' ≤ c ∧ c ≤ 'F' then some (c.toNat - 55)
  else none

/-- Reads four hexadecimal digits. -/
def hexUnit? : List Char → Option (Nat × List Char)
  | a :: b :: c :: d :: rest => do
    let a ← hexValue? a
    let b ← hexValue? b
    let c ← hexValue? c
    let d ← hexValue? d
    some (((a * 16 + b) * 16 + c) * 16 + d, rest)
  | _ => none

/-- Whether a 16-bit unit opens a surrogate pair. -/
def isHighSurrogate (n : Nat) : Bool := decide (0xD800 ≤ n) && decide (n < 0xDC00)

/-- Whether a 16-bit unit closes a surrogate pair. -/
def isLowSurrogate (n : Nat) : Bool := decide (0xDC00 ≤ n) && decide (n < 0xE000)

/-- Reads the units after a backslash and `u`: one character, or a surrogate pair. -/
def unicodeEscape? (text : List Char) : Option (Char × List Char) := do
  let (unit, rest) ← hexUnit? text
  if isHighSurrogate unit then
    match rest with
    | '\\' :: 'u' :: more =>
      let (low, rest) ← hexUnit? more
      if isLowSurrogate low then
        some (Char.ofNat (0x10000 + (unit - 0xD800) * 0x400 + (low - 0xDC00)), rest)
      else none
    | _ => none
  else if isLowSurrogate unit then none
  else some (Char.ofNat unit, rest)

/-- The character a one-letter escape stands for. -/
def simpleEscape? : Char → Option Char
  | '"' => some '"'
  | '\\' => some '\\'
  | '/' => some '/'
  | 'b' => some '\x08'
  | 'f' => some '\x0c'
  | 'n' => some '\n'
  | 'r' => some '\r'
  | 't' => some '\t'
  | _ => none

/-- Reads a text after its opening quote, up to and including the closing one. -/
def stringBody? : Nat → List Char → List Char → Option (String × List Char)
  | 0, _, _ => none
  | fuel + 1, done, text =>
    match text with
    | [] => none
    | '"' :: rest => some (String.ofList done.reverse, rest)
    | '\\' :: 'u' :: rest =>
      match unicodeEscape? rest with
      | some (c, rest) => stringBody? fuel (c :: done) rest
      | none => none
    | '\\' :: e :: rest =>
      match simpleEscape? e with
      | some c => stringBody? fuel (c :: done) rest
      | none => none
    | c :: rest => if c.toNat < 32 then none else stringBody? fuel (c :: done) rest

/-- Reads a number: no leading zeros, digits on both sides of a point. -/
def number? (text : List Char) : Option (Json × List Char) := do
  let (isNegative, body) := match text with
    | '-' :: rest => (true, rest)
    | _ => (false, text)
  let whole := body.takeWhile Char.isDigit
  let rest := body.dropWhile Char.isDigit
  if whole.isEmpty || (whole.length > 1 && whole.head? == some '0') then none
  let (hasPoint, fraction, rest) := match rest with
    | '.' :: tail => (true, tail.takeWhile Char.isDigit, tail.dropWhile Char.isDigit)
    | _ => (false, [], rest)
  if hasPoint && fraction.isEmpty then none
  let (hasMark, minus, digits, rest) := match rest with
    | mark :: tail =>
      if mark == 'e' || mark == 'E' then
        let (minus, tail) := match tail with
          | '-' :: tail => (true, tail)
          | '+' :: tail => (false, tail)
          | _ => (false, tail)
        (true, minus, tail.takeWhile Char.isDigit, tail.dropWhile Char.isDigit)
      else (false, false, [], rest)
    | [] => (false, false, [], rest)
  if hasMark && digits.isEmpty then none
  let n := Text.ofDigits whole
  if !hasPoint && !hasMark && !isNegative && n < Text.longSize then
    return (natural n, rest)
  if !hasPoint && !hasMark && isNegative && 0 < n && n ≤ Text.halfLong then
    return (negative n, rest)
  let e := Text.ofDigits digits
  let exponent : Int := (if minus then -(e : Int) else e) - fraction.length
  return (real (Scalar.ofDecimal isNegative (Text.ofDigits (whole ++ fraction)) exponent), rest)

mutual

/-- Reads a value at the front of a text without leading gap. -/
def value? : Nat → List Char → Option (Json × List Char)
  | 0, _ => none
  | fuel + 1, text =>
    match text with
    | 'n' :: 'u' :: 'l' :: 'l' :: rest => some (null, rest)
    | 't' :: 'r' :: 'u' :: 'e' :: rest => some (bool true, rest)
    | 'f' :: 'a' :: 'l' :: 's' :: 'e' :: rest => some (bool false, rest)
    | '"' :: rest => (stringBody? (rest.length + 1) [] rest).map fun (s, rest) => (string s, rest)
    | '[' :: rest =>
      match skipGap rest with
      | ']' :: rest => some (array [], rest)
      | rest => (items? fuel [] rest).map fun (items, rest) => (array items, rest)
    | '\x7b' :: rest =>
      match skipGap rest with
      | '\x7d' :: rest => some (object [], rest)
      | rest => (fields? fuel [] rest).map fun (fields, rest) => (object fields, rest)
    | _ => number? text

/-- Reads the items of a list from the first item to the closing bracket. -/
def items? : Nat → List Json → List Char → Option (List Json × List Char)
  | 0, _, _ => none
  | fuel + 1, done, text =>
    match value? fuel text with
    | none => none
    | some (item, rest) =>
      match skipGap rest with
      | ',' :: rest => items? fuel (item :: done) (skipGap rest)
      | ']' :: rest => some ((item :: done).reverse, rest)
      | _ => none

/-- Reads the fields of an object from the first name to the closing brace. -/
def fields? : Nat → List (String × Json) → List Char → Option (List (String × Json) × List Char)
  | 0, _, _ => none
  | fuel + 1, done, text =>
    match text with
    | '"' :: rest =>
      match stringBody? (rest.length + 1) [] rest with
      | none => none
      | some (name, rest) =>
        match skipGap rest with
        | ':' :: rest =>
          match value? fuel (skipGap rest) with
          | none => none
          | some (value, rest) =>
            match skipGap rest with
            | ',' :: rest => fields? fuel ((name, value) :: done) (skipGap rest)
            | '\x7d' :: rest => some (((name, value) :: done).reverse, rest)
            | _ => none
        | _ => none
    | _ => none

end

/-- Reads a text that holds one JSON value and nothing else but gaps. -/
def read? (text : List Char) : Option Json := do
  let (json, rest) ← value? (text.length + 1) (skipGap text)
  if (skipGap rest).isEmpty then some json else none

end Json

end StabCircuit
