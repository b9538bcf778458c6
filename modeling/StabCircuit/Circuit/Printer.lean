import StabCircuit.Circuit.Basic

/-!
# Circuits as text

One line an instruction; a repeat block opens with `REPEAT` and its count, its
body is indented by four and it closes with a brace on a line of its own.
-/

namespace StabCircuit

namespace Circuit

mutual

/-- The lines of an operation, each with its line feed, indented by `indent`. -/
def operationText (indent : Nat) : Operation → String
  | .instruction i => String.ofList (List.replicate indent ' ') ++ i.text ++ "\n"
  | .block count body =>
    let margin := String.ofList (List.replicate indent ' ')
    margin ++ "REPEAT " ++ toString count ++ " \x7b\n" ++ indentedText (indent + 4) body ++
      margin ++ "\x7d\n"

/-- The lines of a list of operations, indented by `indent`. -/
def indentedText (indent : Nat) : List Operation → String
  | [] => ""
  | op :: rest => operationText indent op ++ indentedText indent rest

end

/-- The circuit as text. -/
def text (c : Circuit) : String := indentedText 0 c

/-- The text of the last operation. -/
def lastText? (c : Circuit) : Option String := c.getLast?.map (operationText 0)

end Circuit

end StabCircuit
