import StabCircuit.Error
import StabCircuit.Pauli.Basis
import StabCircuit.Text.Blank
import StabCircuit.Text.Integer

/-!
# Instruction targets

The entries of an instruction's target list, their text, and the grouping of
target lists into Pauli products by combiners.
-/

namespace StabCircuit

/-- One entry of a target list. -/
inductive Target where
  /-- A plain qubit. -/
  | qubit (index : Nat)
  /-- A qubit with a Pauli basis, a factor of a product. -/
  | pauli (basis : Basis) (index : Nat)
  /-- A measurement result, counted backwards: `-1` is the latest. -/
  | record (offset : Int)
  /-- A sweep bit. -/
  | sweep (bit : Nat)
  /-- Joins its neighbours into one product. -/
  | combiner
deriving DecidableEq, Inhabited

namespace Target

/-- The qubit a target refers to. -/
def qubit? : Target → Option Nat
  | qubit q | pauli _ q => some q
  | _ => none

/-- Whether the target is a measurement record. -/
def isRecord : Target → Bool
  | record _ => true
  | _ => false

/-- Whether the target is a sweep bit. -/
def isSweep : Target → Bool
  | sweep _ => true
  | _ => false

/-- Whether the target is a combiner. -/
def isCombiner : Target → Bool
  | combiner => true
  | _ => false

/-- Whether the target is a Pauli factor. -/
def isPauli : Target → Bool
  | pauli _ _ => true
  | _ => false

/-- Whether the target is a classical bit. -/
def isClassical (t : Target) : Bool := t.isRecord || t.isSweep

/-- The basis of a Pauli factor. -/
def basis? : Target → Option Basis
  | pauli b _ => some b
  | _ => none

/-- The target as text. -/
def text : Target → String
  | qubit q => toString q
  | pauli b q => b.text ++ toString q
  | record offset => "rec[" ++ toString offset ++ "]"
  | sweep bit => "sweep[" ++ toString bit ++ "]"
  | combiner => "*"

/-- The inside of a text that opens with `lead` and ends with a bracket. -/
def bracketed? (lead : String) (text : List Char) : Option (List Char) :=
  (Text.dropLead? lead.toList text).bind (Text.dropLast? ']')

/-- Reads a target. -/
def read (text : List Char) : Except CircuitError Target :=
  let malformed := .error (.invalidArgument (.malformedTarget (String.ofList text)))
  if text = ['*'] then .ok combiner
  else if let some inner := bracketed? "rec[" text then
    match Text.intWithin? Text.halfWord inner with
    | some offset => if 0 ≤ offset then malformed else .ok (record offset)
    | none => malformed
  else if let some inner := bracketed? "sweep[" text then
    match Text.natBelow? Text.wordSize inner with
    | some bit => .ok (sweep bit)
    | none => malformed
  else
    match text with
    | [] => malformed
    | c :: rest =>
      if c.isAlpha then
        match Basis.ofLetter? c with
        | none => .error (.unsupportedBasis (String.singleton c))
        | some b =>
          match Text.natBelow? Text.wordSize rest with
          | some q => .ok (pauli b q)
          | none => malformed
      else
        match Text.natBelow? Text.wordSize text with
        | some q => .ok (qubit q)
        | none => malformed

/-- The products of a target list that follows the open product `group`; `joining` tells whether
a combiner stood last. -/
def extendProduct (group : List Target) : Bool → List Target → List (List Target)
  | _, [] => [group]
  | joining, t :: rest =>
    if t.isCombiner then extendProduct group true rest
    else if joining then extendProduct (group ++ [t]) false rest
    else group :: extendProduct [t] false rest

/-- Splits a target list into products and drops the combiners: a target joins the product before
it when a combiner stands in between. -/
def productGroups : List Target → List (List Target)
  | [] => []
  | t :: rest => if t.isCombiner then productGroups rest else extendProduct [t] false rest

/-- A product written with combiners between its factors. -/
def joinProduct (group : List Target) : List Target := group.intersperse combiner

/-- Products written one after another, with combiners inside each. -/
def joinProducts (groups : List (List Target)) : List Target := groups.flatMap joinProduct

/-- Splits a list into pairs, a last odd entry standing alone. -/
def pairs : List Target → List (List Target)
  | [] => []
  | [a] => [[a]]
  | a :: b :: rest => [a, b] :: pairs rest

end Target

end StabCircuit
