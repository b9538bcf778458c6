import StabCircuit.Circuit.Printer
import StabCircuit.Proofs.Circuit.LineText
import StabCircuit.Proofs.Circuit.Settled

/-!
# Reading a written circuit

The text of a circuit is read line by line into the circuit itself, up to the signs
of zero and NaN arguments.  Every operation, read from its lines, is appended to the
innermost open block; the circuit is settled, so nothing merges or dissolves.
-/

namespace StabCircuit

/-! ## Circuits without signs of zero and NaN -/

namespace Scalar

theorem listNumEq_map_reread (xs ys : List Scalar) :
    listNumEq (xs.map reread) (ys.map reread) = listNumEq xs ys := by
  induction xs generalizing ys with
  | nil => cases ys <;> rfl
  | cons x xs ih =>
    cases ys with
    | nil => rfl
    | cons y ys => simp only [List.map_cons, listNumEq, numEq_reread, ih]

theorem listNumEq_reread {xs : List Scalar} (h : ∀ x ∈ xs, x.isNaN = false) :
    listNumEq (xs.map reread) xs = true := by
  induction xs with
  | nil => rfl
  | cons x xs ih =>
    rw [List.forall_mem_cons] at h
    rw [List.map_cons, listNumEq, reread_numEq h.1, ih h.2, Bool.and_self]

end Scalar

namespace Instruction

/-- No argument is NaN. -/
def HasNumbers (i : Instruction) : Prop := ∀ x ∈ i.args, x.isNaN = false

instance : DecidablePred HasNumbers := fun i =>
  inferInstanceAs (Decidable (∀ x ∈ i.args, x.isNaN = false))

theorem numEq_reread {i : Instruction} (h : i.HasNumbers) : i.reread.numEq i = true := by
  simp [numEq, reread, Scalar.listNumEq_reread h]

end Instruction

namespace Circuit

mutual

/-- The operation as it is read from its lines. -/
def rereadOperation : Operation → Operation
  | .instruction i => .instruction i.reread
  | .block count body => .block count (reread body)

/-- The circuit as it is read from its text. -/
def reread : List Operation → List Operation
  | [] => []
  | op :: rest => rereadOperation op :: reread rest

end

theorem fuses_reread (last next : Instruction) :
    fuses last.reread next.reread = fuses last next := by
  simp only [fuses, Instruction.reread, Instruction.gate?, Scalar.listNumEq_map_reread]

theorem apart_reread {a b : Operation} (h : Apart a b) :
    Apart (rereadOperation a) (rereadOperation b) := by
  cases a with
  | instruction last =>
    cases b with
    | instruction next => exact (fuses_reread last next).trans h
    | block count body => trivial
  | block count body => trivial

mutual

theorem settled_reread : (ops : List Operation) → Settled ops → Settled (reread ops)
  | [], _ => trivial
  | op :: rest, h => by
    rw [Settled] at h
    refine ⟨settledOperation_reread op h.1, ?_, settled_reread rest h.2.2⟩
    cases rest with
    | nil => simp [reread]
    | cons next rest =>
      rintro _ ⟨⟩
      exact apart_reread (h.2.1 next rfl)

theorem settledOperation_reread : (op : Operation) → SettledOperation op →
    SettledOperation (rereadOperation op)
  | .instruction _, _ => trivial
  | .block _ body, h => ⟨h.1, settled_reread body h.2⟩

end

mutual

/-- What is read equals what was written, when every argument is a number. -/
theorem numEqAll_reread_of_numbers : (ops : List Operation) →
    Everywhere Instruction.HasNumbers ops → Operation.numEqAll (reread ops) ops = true
  | [], _ => by rw [reread, Operation.numEqAll]
  | op :: rest, h => by
    rw [everywhere_cons] at h
    rw [reread, Operation.numEqAll, numEq_rereadOperation op h.1,
      numEqAll_reread_of_numbers rest h.2, Bool.and_self]

theorem numEq_rereadOperation : (op : Operation) → Within Instruction.HasNumbers op →
    (rereadOperation op).numEq op = true
  | .instruction i, h => by
    rw [rereadOperation, Operation.numEq]
    exact Instruction.numEq_reread (within_instruction.1 h)
  | .block count body, h => by
    rw [rereadOperation, Operation.numEq, numEqAll_reread_of_numbers body (within_block.1 h)]
    simp

end

theorem numEqAll_reread (c : List Operation) (h : Everywhere Instruction.IsWritable c) :
    Operation.numEqAll (reread c) c = true :=
  numEqAll_reread_of_numbers c (h.mono fun _ hi => hi.args)

mutual

/-- What is lost in reading shows in no text. -/
theorem indentedText_reread (indent : Nat) : (ops : List Operation) →
    indentedText indent (reread ops) = indentedText indent ops
  | [] => rfl
  | op :: rest => by
    rw [reread, indentedText, indentedText, operationText_reread indent op,
      indentedText_reread indent rest]

theorem operationText_reread (indent : Nat) : (op : Operation) →
    operationText indent (rereadOperation op) = operationText indent op
  | .instruction i => by
    rw [rereadOperation, operationText, operationText, Instruction.text_reread]
  | .block count body => by
    simp only [rereadOperation, operationText, indentedText_reread (indent + 4) body]

end

/-! ## The lines of a circuit -/

mutual

/-- The lines of an operation, without their line feeds. -/
def operationLines (indent : Nat) : Operation → List (List Char)
  | .instruction i => [List.replicate indent ' ' ++ i.text.toList]
  | .block count body =>
    [List.replicate indent ' ' ++ header count] ++ indentedLines (indent + 4) body ++
      [List.replicate indent ' ' ++ ['\x7d']]

/-- The lines of a circuit, without their line feeds. -/
def indentedLines (indent : Nat) : List Operation → List (List Char)
  | [] => []
  | op :: rest => operationLines indent op ++ indentedLines indent rest

end

mutual

theorem toList_indentedText (indent : Nat) : (ops : List Operation) →
    (indentedText indent ops).toList = (indentedLines indent ops).flatMap (· ++ ['\n'])
  | [] => rfl
  | op :: rest => by
    rw [indentedText, indentedLines, String.toList_append, List.flatMap_append,
      toList_operationText indent op, toList_indentedText indent rest]

theorem toList_operationText (indent : Nat) : (op : Operation) →
    (operationText indent op).toList = (operationLines indent op).flatMap (· ++ ['\n'])
  | .instruction i => by
    rw [operationText, operationLines, String.toList_append, String.toList_append,
      String.toList_ofList, List.flatMap_singleton]
    rfl
  | .block count body => by
    have hheader : " \x7b\n".toList = [' ', '\x7b'] ++ ['\n'] := rfl
    have hbrace : "\x7d\n".toList = ['\x7d'] ++ ['\n'] := rfl
    have hrepeat : "REPEAT ".toList = ['R', 'E', 'P', 'E', 'A', 'T'] ++ [' '] := by decide
    simp only [operationText, operationLines, String.toList_append, String.toList_ofList,
      List.flatMap_append, List.flatMap_singleton, toList_indentedText (indent + 4) body,
      Target.toList_toString, header, hheader, hbrace, hrepeat]
    simp only [List.append_assoc, List.cons_append, List.nil_append]

end

mutual

/-- The counts of all blocks fit a 64-bit word. -/
def countsFit : List Operation → Bool
  | [] => true
  | op :: rest => operationCountsFit op && countsFit rest

/-- The counts of a block and of the blocks in it fit a 64-bit word. -/
def operationCountsFit : Operation → Bool
  | .instruction _ => true
  | .block count body => decide (count < Text.longSize) && countsFit body

end

/-- Checked instructions with readable texts. -/
def IsReadable (i : Instruction) : Prop := i.IsChecked ∧ i.IsWritable

/-- Instructions whose lines are read back. -/
structure IsLegible (i : Instruction) : Prop where
  sized : i.IsSized
  apart : i.IsSetApart

theorem IsReadable.isLegible {i : Instruction} (h : IsReadable i) : IsLegible i where
  sized := ⟨h.1, h.2.targets⟩
  apart := h.1.isSetApart h.2

theorem newline_not_mem {line : List Char} (h : LinePart line) (indent : Nat) :
    '\n' ∉ List.replicate indent ' ' ++ line := by
  intro hmem
  rcases List.mem_append.1 hmem with hmem | hmem
  · exact absurd (List.eq_of_mem_replicate hmem) (by decide)
  · exact absurd (h.chars _ hmem) (by decide)

mutual

theorem newline_not_mem_indentedLines (indent : Nat) : (ops : List Operation) →
    Everywhere Instruction.IsSized ops → ∀ line ∈ indentedLines indent ops, '\n' ∉ line
  | [], _ => by simp [indentedLines]
  | op :: rest, h => by
    rw [everywhere_cons] at h
    rw [indentedLines, List.forall_mem_append]
    exact ⟨newline_not_mem_operationLines indent op h.1,
      newline_not_mem_indentedLines indent rest h.2⟩

theorem newline_not_mem_operationLines (indent : Nat) : (op : Operation) →
    Within Instruction.IsSized op → ∀ line ∈ operationLines indent op, '\n' ∉ line
  | .instruction i, h => by
    rw [within_instruction] at h
    rw [operationLines, List.forall_mem_singleton]
    exact newline_not_mem (linePart_text h) indent
  | .block count body, h => by
    rw [within_block] at h
    rw [operationLines, List.forall_mem_append, List.forall_mem_append, List.forall_mem_singleton,
      List.forall_mem_singleton]
    exact ⟨⟨newline_not_mem (linePart_header count) indent,
      newline_not_mem_indentedLines (indent + 4) body h⟩, newline_not_mem linePart_brace indent⟩

end

theorem lines_text {c : Circuit} (h : Everywhere Instruction.IsSized c) :
    Text.lines c.text.toList = indentedLines 0 c := by
  rw [text, toList_indentedText, Text.lines_flatMap (newline_not_mem_indentedLines 0 c h)]

/-! ## Reading the lines -/

theorem readLines_append {state middle : ReaderState} {number : Nat}
    {before : List (List Char)} (h : readLines state number before = .ok middle)
    (after : List (List Char)) :
    readLines state number (before ++ after) =
      readLines middle (number + before.length) after := by
  induction before generalizing state number with
  | nil =>
    obtain rfl : state = middle := by simpa [readLines] using h
    rfl
  | cons line rest ih =>
    rw [readLines] at h
    rw [List.cons_append, readLines]
    split at h
    · next next hnext =>
      rw [ih h, List.length_cons, Nat.add_right_comm, Nat.add_assoc]
    · cases h

/-- Lines take the reader from one state to another, whatever their numbers. -/
def Reads (state : ReaderState) (lines : List (List Char)) (next : ReaderState) : Prop :=
  ∀ number, readLines state number lines = .ok next

theorem Reads.line {state next : ReaderState} {line : List Char}
    (h : ∀ number, readLine state number line = .ok next) : Reads state [line] next := by
  intro number
  simp only [readLines, h number]

theorem Reads.append {state middle next : ReaderState} {before after : List (List Char)}
    (hbefore : Reads state before middle) (hafter : Reads middle after next) :
    Reads state (before ++ after) next := by
  intro number
  rw [readLines_append (hbefore number)]
  exact hafter _

mutual

/-- The lines of operations append them to the innermost open block. -/
theorem reads_indentedLines (indent : Nat) : (ops : List Operation) →
    Everywhere IsLegible ops → Settled ops → countsFit ops = true →
      (count : Nat) → (done : List Operation) → (outer : List OpenBlock) →
        Reads ⟨⟨count, done⟩, outer⟩ (indentedLines indent ops)
          ⟨⟨count, addAllReversed done (reread ops)⟩, outer⟩
  | [], _, _, _, count, done, outer => by
    intro number
    rw [indentedLines, readLines, reread, addAllReversed]
  | op :: rest, hlegible, hsettled, hcounts, count, done, outer => by
    rw [everywhere_cons] at hlegible
    rw [Settled] at hsettled
    rw [countsFit, Bool.and_eq_true] at hcounts
    rw [indentedLines, reread, addAllReversed]
    apply (reads_operationLines indent op hlegible.1 hsettled.1 hcounts.1 count done outer).append
    exact reads_indentedLines indent rest hlegible.2 hsettled.2.2 hcounts.2 count _ outer

/-- The lines of an operation append it to the innermost open block. -/
theorem reads_operationLines (indent : Nat) : (op : Operation) →
    Within IsLegible op → SettledOperation op → operationCountsFit op = true →
      (count : Nat) → (done : List Operation) → (outer : List OpenBlock) →
        Reads ⟨⟨count, done⟩, outer⟩ (operationLines indent op)
          ⟨⟨count, addReversed done (rereadOperation op)⟩, outer⟩
  | .instruction i, hlegible, _, _, count, done, outer => by
    rw [within_instruction] at hlegible
    rw [operationLines, rereadOperation, addReversed]
    apply Reads.line
    intro number
    exact readLine_instruction hlegible.sized hlegible.apart _ number indent
  | .block repeats body, hlegible, hsettled, hcounts, count, done, outer => by
    rw [within_block] at hlegible
    rw [SettledOperation] at hsettled
    rw [operationCountsFit, Bool.and_eq_true, decide_eq_true_eq] at hcounts
    -- the body is read into a block of its own, which closes as the body itself
    have hbody := reads_indentedLines (indent + 4) body hlegible hsettled.2 hcounts.2 repeats []
      (⟨count, done⟩ :: outer)
    rw [addAllReversed_nil_of_settled (settled_reread body hsettled.2)] at hbody
    rw [operationLines, rereadOperation]
    apply Reads.append
    · apply Reads.append _ hbody
      apply Reads.line
      intro number
      exact readLine_header hcounts.1 _ number indent
    · apply Reads.line
      intro number
      rw [readLine_brace, List.reverse_reverse]

end

/-- The text of a settled circuit is read as that circuit, without signs of zero and NaN. -/
theorem parse_text_of_legible {c : Circuit} (hlegible : Everywhere IsLegible c)
    (hsettled : Settled c) (hcounts : countsFit c = true) : parse c.text = .ok (reread c) := by
  have hlines := lines_text (hlegible.mono fun _ h => h.sized)
  have hread := reads_indentedLines 0 c hlegible hsettled hcounts 1 [] [] 1
  rw [addAllReversed_nil_of_settled (settled_reread c hsettled)] at hread
  simp [parse, hlines, hread]

theorem parse_text_of_settled {c : Circuit} (hreadable : Everywhere IsReadable c)
    (hsettled : Settled c) (hcounts : countsFit c = true) : parse c.text = .ok (reread c) :=
  parse_text_of_legible (hreadable.mono fun _ h => h.isLegible) hsettled hcounts

/-! ## Circuits put together by appending -/

/-- Circuits put together from made instructions, in every way there is. -/
inductive Assembled : Circuit → Prop
  /-- The circuit without operations. -/
  | nil : Assembled []
  /-- A made instruction is appended. -/
  | push {c : Circuit} {name : String} {targets : List Target} {args : List Scalar}
      {i : Instruction} (hc : Assembled c) (hi : Instruction.make name targets args = .ok i) :
      Assembled (c.push i)
  /-- A step boundary is appended. -/
  | tick {c : Circuit} (hc : Assembled c) : Assembled c.tick
  /-- A body is appended, to run a number of times. -/
  | pushRepeat {c body : Circuit} (hc : Assembled c) (hbody : Assembled body) (count : Nat) :
      Assembled (c.pushRepeat count body)
  /-- The operations of another circuit are appended. -/
  | extend {c other : Circuit} (hc : Assembled c) (hother : Assembled other) :
      Assembled (c.extend other)
  /-- A circuit is repeated a number of times. -/
  | repeated {c : Circuit} (hc : Assembled c) (count : Nat) : Assembled (c.repeated count)

theorem Assembled.built {c : Circuit} (h : Assembled c) : Built c := by
  induction h with
  | nil => exact .nil
  | push hc hi ih => exact .push ih hi
  | tick hc ih => exact .push ih Instruction.isChecked_tick
  | pushRepeat hc hbody count ih ihbody => exact .pushRepeat ih ihbody count
  | @extend c other hc hother ih ihother =>
    rw [Circuit.extend]
    apply built_addAllReversed other ihother.checked ihother.settled
    rwa [List.reverse_reverse]
  | repeated hc count ih => exact .pushRepeat .nil ih count

/-- Reading undoes writing: the text of a circuit put together from made instructions is read as
an equal circuit. -/
theorem parse_text {c : Circuit} (h : Assembled c) (hwritable : Everywhere Instruction.IsWritable c)
    (hcounts : countsFit c = true) :
    ∃ d, parse c.text = .ok d ∧ Operation.numEqAll d c = true := by
  have hbuilt := h.built
  have hreadable : Everywhere IsReadable c := fun i hi => ⟨hbuilt.checked i hi, hwritable i hi⟩
  exact ⟨reread c, parse_text_of_settled hreadable hbuilt.settled hcounts,
    numEqAll_reread c hwritable⟩

/-- A measured product and feedback, with arguments that take a decimal point and a negative zero. -/
def feedbackBlock : Circuit :=
  ((Circuit.push []
    ⟨Gate.measureProduct.name, [.pauli .x 0, .combiner, .pauli .z 1, .pauli .y 2], [1 / 10]⟩).tick).push
    ⟨(Gate.controlled .z .x).name, [.record (-2), .qubit 1, .sweep 3, .qubit 0],
      [Scalar.zero.neg, 5 / 2]⟩

/-- Blocks in a block, before what follows them. -/
def nestedBlocks : Circuit :=
  ((Circuit.push [] (.onQubits (.reset .z) [0, 1, 2] [])).pushRepeat 3
    (feedbackBlock.extend (feedbackBlock.repeated 2))).extend feedbackBlock

theorem parse_text_nestedBlocks :
    Assembled nestedBlocks ∧ Everywhere Instruction.IsWritable nestedBlocks ∧
      countsFit nestedBlocks = true ∧
      ∃ d, parse nestedBlocks.text = .ok d ∧ Operation.numEqAll d nestedBlocks = true := by
  have hfeedback : Assembled feedbackBlock :=
    .push (.tick (.push .nil (show Instruction.IsChecked _ by decide +kernel)))
      (show Instruction.IsChecked _ by decide +kernel)
  have hassembled : Assembled nestedBlocks :=
    .extend (.pushRepeat (.push .nil (show Instruction.IsChecked _ by decide +kernel))
      (.extend hfeedback (.repeated hfeedback 2)) 3) hfeedback
  have hwritable : Everywhere Instruction.IsWritable nestedBlocks := by decide +kernel
  have hcounts : countsFit nestedBlocks = true := by decide +kernel
  exact ⟨hassembled, hwritable, hcounts, parse_text hassembled hwritable hcounts⟩

end Circuit

end StabCircuit
