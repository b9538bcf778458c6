import StabCircuit.Scalar.Rounding

/-!
# JSON values

The value type shared by the document decoders.  Whole numbers that fit a
64-bit word keep their exact value; every other number is a double.  Objects
keep the order and the repetitions of their fields.
-/

namespace StabCircuit

/-- A JSON value. -/
inductive Json where
  /-- The null value. -/
  | null
  /-- A truth value. -/
  | bool (value : Bool)
  /-- A whole number below `2 ^ 64`, written without fraction and exponent. -/
  | natural (value : Nat)
  /-- Minus a positive number of at most `2 ^ 63`, written without fraction and exponent. -/
  | negative (value : Nat)
  /-- Any other number. -/
  | real (value : Scalar)
  /-- A text. -/
  | string (value : String)
  /-- A list of values. -/
  | array (items : List Json)
  /-- Named values in the order written. -/
  | object (fields : List (String × Json))
deriving Inhabited

namespace Json

/-- The number a JSON number stands for, as a double; one beyond the largest double is refused. -/
def scalar? : Json → Option Scalar
  | natural n => some (Scalar.ofNat n)
  | negative n => some (Scalar.ofInt (-n))
  | real x => if x.isInfinite then none else some x
  | _ => none

/-- A whole number below `bound`. -/
def natBelow? (bound : Nat) : Json → Option Nat
  | natural n => if n < bound then some n else none
  | _ => none

/-- An integer from `-half` up to but not including `half`. -/
def intWithin? (half : Nat) : Json → Option Int
  | natural n => if n < half then some n else none
  | negative n => if n ≤ half then some (-n) else none
  | _ => none

/-- A text. -/
def string? : Json → Option String
  | string s => some s
  | _ => none

/-- A truth value. -/
def bool? : Json → Option Bool
  | bool b => some b
  | _ => none

/-- The items of a list. -/
def array? : Json → Option (List Json)
  | array items => some items
  | _ => none

/-- A list, each item decoded; fails when one item does. -/
def listOf? {α : Type} (decode : Json → Option α) (json : Json) : Option (List α) :=
  json.array?.bind fun items => items.mapM decode

/-- A value that may be null. -/
def nullable? {α : Type} (decode : Json → Option α) : Json → Option (Option α)
  | null => some none
  | json => (decode json).map some

/-- The two items of a list of length two. -/
def pair? : Json → Option (Json × Json)
  | array [a, b] => some (a, b)
  | _ => none

/-- The value of one named field: absent, present once, or (a failure) repeated. -/
def lookup? (fields : List (String × Json)) (name : String) : Option (Option Json) :=
  match fields.filter fun field => field.1 == name with
  | [] => some none
  | [(_, value)] => some (some value)
  | _ => none

/-- The values of a record's fields by name, or by position when written as a list.
Unknown names are ignored; a repeated name or a surplus position is a failure. -/
def record? (names : List String) : Json → Option (List (Option Json))
  | object fields => names.mapM (lookup? fields)
  | array items =>
    if items.length ≤ names.length then
      some (items.map some ++ List.replicate (names.length - items.length) none)
    else none
  | _ => none

/-- A choice written as its bare name, or as an object with one field: name and payload. -/
def variant? : Json → Option (String × Json)
  | string name => some (name, null)
  | object [(name, payload)] => some (name, payload)
  | _ => none

/-- A field that takes a default when absent. -/
def orDefault? {α : Type} (decode : Json → Option α) (default : α) : Option Json → Option α
  | none => some default
  | some json => decode json

mutual

/-- Keeps only the last of the fields that share a name, at every depth. -/
def lastWins : Json → Json
  | array items => array (lastWinsList items)
  | object fields => object (lastWinsFields fields)
  | json => json

/-- `lastWins` on every item. -/
def lastWinsList : List Json → List Json
  | [] => []
  | item :: items => lastWins item :: lastWinsList items

/-- `lastWins` on fields, dropping each field that a later one overrides. -/
def lastWinsFields : List (String × Json) → List (String × Json)
  | [] => []
  | (name, value) :: fields =>
    let rest := lastWinsFields fields
    if rest.any fun field => field.1 == name then rest else (name, lastWins value) :: rest

end

end Json

end StabCircuit
