import StabCircuit.Circuit.Basic
import StabCircuit.Scalar.Reader

/-!
# Reading circuit text

Text is read line by line.  A hash opens a comment, blank lines are skipped, a
line that starts with `REPEAT` opens a block and a closing brace ends it.  Every
other line is an instruction: a name, arguments in parentheses, and targets.
-/

namespace StabCircuit

namespace Circuit

/-- Splits a line into the head (name and arguments) and the targets.  The head ends at the first
blank, unless that stands inside an open argument list; then it ends after the closing
parenthesis, or takes the whole line when there is none. -/
def splitHead (line : List Char) : List Char × List Char :=
  let word := line.takeWhile fun c => !Text.isBlank c
  let rest := line.dropWhile fun c => !Text.isBlank c
  if !rest.isEmpty && (!word.contains '(' || word.contains ')') then (word, rest)
  else if line.contains ')' then
    let inside := line.takeWhile (· != ')')
    (inside ++ [')'], line.drop (inside.length + 1))
  else (line, [])

/-- Reads arguments separated by commas; empty ones are skipped. -/
def readArgs (number : Nat) (inner : List Char) : Except CircuitError (List Scalar) :=
  let texts := ((Text.pieces (· == ',') inner).map Text.trim).filter fun a => !a.isEmpty
  texts.mapM fun a =>
    match Scalar.read? a with
    | some x => .ok x
    | none => .error (.malformedLine number (.badArgument (String.ofList a)))

/-- Reads the name and the arguments of a head. -/
def readHead (number : Nat) (head : List Char) :
    Except CircuitError (List Char × List Scalar) :=
  let name := head.takeWhile (· != '(')
  match head.dropWhile (· != '(') with
  | [] => .ok (head, [])
  | _ :: tail =>
    match Text.dropLast? ')' tail with
    | none => .error (.malformedLine number .unterminatedArguments)
    | some inner => (readArgs number inner).map fun args => (Text.trim name, args)

/-- Sets combiners apart by blanks. -/
def spaceCombiners (text : List Char) : List Char :=
  text.flatMap fun c => if c = '*' then [' ', '*', ' '] else [c]

/-- Marks an error as arising from a line. -/
def atLine {α : Type} (number : Nat) : Except CircuitError α → Except CircuitError α
  | .ok a => .ok a
  | .error e => .error (.rejectedLine number e)

/-- Reads the targets of a line. -/
def readTargets (number : Nat) (text : List Char) : Except CircuitError (List Target) :=
  (Text.words (spaceCombiners text)).mapM fun word => atLine number (Target.read word)

/-- Reads an instruction from a line without comment and outer blanks. -/
def readInstruction (number : Nat) (line : List Char) : Except CircuitError Instruction := do
  let (head, rest) := splitHead line
  let (name, args) ← readHead number head
  let targets ← readTargets number rest
  atLine number (Instruction.make (String.ofList name) targets args)

/-- Reads the count of a repeat header, given what follows the word `REPEAT`. -/
def repeatCount? (rest : List Char) : Option Nat :=
  (Text.dropLast? '\x7b' (Text.trim rest)).bind fun count =>
    Text.natBelow? Text.longSize (Text.trim count)

/-- A repeat block being read: its count and the operations so far, in reverse order. -/
structure OpenBlock where
  /-- The repetition count of the block. -/
  count : Nat
  /-- The operations read so far, in reverse order. -/
  operations : List Operation

/-- The state of the reader: the innermost open block and those around it. -/
structure ReaderState where
  /-- The block that takes the next operation. -/
  current : OpenBlock
  /-- The enclosing blocks, innermost first. -/
  outer : List OpenBlock

/-- Takes in one line. -/
def readLine (state : ReaderState) (number : Nat) (raw : List Char) :
    Except CircuitError ReaderState :=
  let line := Text.trim (raw.takeWhile (· != '#'))
  if line.isEmpty then .ok state
  else if line = ['\x7d'] then
    match state.outer with
    | [] => .error (.malformedLine number .unmatchedBrace)
    | parent :: outer =>
      let body := state.current.operations.reverse
      let operations := addReversed parent.operations (.block state.current.count body)
      .ok ⟨{ parent with operations }, outer⟩
  else
    match Text.dropLead? "REPEAT".toList line with
    | some rest =>
      match repeatCount? rest with
      | some count => .ok ⟨⟨count, []⟩, state.current :: state.outer⟩
      | none => .error (.malformedLine number .malformedRepeat)
    | none =>
      (readInstruction number line).map fun i =>
        { state with
          current := { state.current with
            operations := pushReversed state.current.operations i } }

/-- Takes in lines, numbered from `number`. -/
def readLines (state : ReaderState) (number : Nat) :
    List (List Char) → Except CircuitError ReaderState
  | [] => .ok state
  | line :: rest =>
    match readLine state number line with
    | .ok state => readLines state (number + 1) rest
    | .error e => .error e

/-- Reads a circuit. -/
def parse (text : String) : Except CircuitError Circuit :=
  let lines := Text.lines text.toList
  match readLines ⟨⟨1, []⟩, []⟩ 1 lines with
  | .error e => .error e
  | .ok state =>
    if state.outer.isEmpty then .ok state.current.operations.reverse
    else .error (.malformedLine lines.length .unterminatedRepeat)

end Circuit

end StabCircuit
