import StabCircuit.Json.Basic
import StabCircuit.Scalar.Printer

/-!
# Writing JSON

Two layouts: `compress` on one line without blanks, and `pretty` with one item
or field a line, indented by two.
-/

namespace StabCircuit

namespace Json

/-- A hexadecimal digit in lower case. -/
def hexDigit (n : Nat) : Char := Nat.digitChar n

/-- A character as it stands between quotes. -/
def escapeChar (c : Char) : List Char :=
  if c = '"' then ['\\', '"']
  else if c = '\\' then ['\\', '\\']
  else if c = '\n' then ['\\', 'n']
  else if c = '\r' then ['\\', 'r']
  else if c = '\t' then ['\\', 't']
  else if c = '\x08' then ['\\', 'b']
  else if c = '\x0c' then ['\\', 'f']
  else if c.toNat < 32 then ['\\', 'u', '0', '0', hexDigit (c.toNat / 16), hexDigit (c.toNat % 16)]
  else [c]

/-- A text between quotes. -/
def quote (s : String) : String :=
  "\"" ++ String.ofList (s.toList.flatMap escapeChar) ++ "\""

mutual

/-- A value on one line, without blanks. -/
def compress : Json → String
  | null => "null"
  | bool b => if b then "true" else "false"
  | natural n => String.ofList (Nat.toDigits 10 n)
  | negative n => "-" ++ String.ofList (Nat.toDigits 10 n)
  | real x => x.plain
  | string s => quote s
  | array items => "[" ++ compressItems items ++ "]"
  | object fields => "\x7b" ++ compressFields fields ++ "\x7d"

/-- Items separated by commas. -/
def compressItems : List Json → String
  | [] => ""
  | [item] => compress item
  | item :: items => compress item ++ "," ++ compressItems items

/-- Fields separated by commas. -/
def compressFields : List (String × Json) → String
  | [] => ""
  | [(name, value)] => quote name ++ ":" ++ compress value
  | (name, value) :: fields =>
    quote name ++ ":" ++ compress value ++ "," ++ compressFields fields

end

/-- A new line, indented by two blanks a level. -/
def newLine (level : Nat) : String := "\n" ++ String.ofList (List.replicate (2 * level) ' ')

mutual

/-- A value over several lines, its inner lines indented one level deeper than `level`. -/
def prettyAt (level : Nat) : Json → String
  | array [] => "[]"
  | object [] => "\x7b\x7d"
  | array items => "[" ++ prettyItems (level + 1) items ++ newLine level ++ "]"
  | object fields => "\x7b" ++ prettyFields (level + 1) fields ++ newLine level ++ "\x7d"
  | null => "null"
  | bool b => if b then "true" else "false"
  | natural n => String.ofList (Nat.toDigits 10 n)
  | negative n => "-" ++ String.ofList (Nat.toDigits 10 n)
  | real x => x.plain
  | string s => quote s

/-- Items, each on a line of its own. -/
def prettyItems (level : Nat) : List Json → String
  | [] => ""
  | [item] => newLine level ++ prettyAt level item
  | item :: items => newLine level ++ prettyAt level item ++ "," ++ prettyItems level items

/-- Fields, each on a line of its own. -/
def prettyFields (level : Nat) : List (String × Json) → String
  | [] => ""
  | [(name, value)] => newLine level ++ quote name ++ ": " ++ prettyAt level value
  | (name, value) :: fields =>
    newLine level ++ quote name ++ ": " ++ prettyAt level value ++ "," ++
      prettyFields level fields

end

/-- A value over several lines. -/
def pretty (json : Json) : String := prettyAt 0 json

end Json

end StabCircuit
