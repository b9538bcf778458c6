import StabCircuit.Proofs.Circuit.RoundTrip

/-!
# Text that can be read again

A combiner is written right after what stands before it.  Where targets open with a
combiner, it runs into the name or the argument list of the instruction, and the line
cannot be read, unless the arguments keep them apart.  Nothing else is lost: a made
instruction, and a circuit read from text, is read again from its own text exactly when
all targets are set apart.
-/

namespace StabCircuit

namespace Circuit

/-! ## One line -/

/-- The line of an instruction, read as a circuit. -/
theorem parse_instruction {i : Instruction} (h : i.IsSized) :
    parse i.text = (readInstruction 1 i.text.toList).map fun j => [.instruction j] := by
  have hnewline : ∀ c ∈ i.text.toList, (c == '\n') = false := by
    intro c hc
    rw [beq_eq_false_iff_ne]
    rintro rfl
    exact absurd ((linePart_text h).chars _ hc) (by decide)
  have hne : i.text.toList ≠ [] := by
    obtain ⟨c, rest, htext, -⟩ := exists_cons_text h.checked
    simp [htext]
  have hlines : Text.lines i.text.toList = [i.text.toList] := by
    simp [Text.lines, Text.pieces_of_forall hnewline, hne]
  have hread := readLine_text h ⟨⟨1, []⟩, []⟩ 1 0
  rw [List.replicate_zero, List.nil_append] at hread
  cases hresult : readInstruction 1 i.text.toList with
  | ok j =>
    rw [hresult] at hread
    simp [parse, hlines, readLines, hread, Except.map, pushReversed]
  | error e =>
    rw [hresult] at hread
    simp [parse, hlines, readLines, hread, Except.map]

theorem parse_instruction_of_isSetApart {i : Instruction} (h : i.IsSized)
    (hapart : i.IsSetApart) : parse i.text = .ok [.instruction i.reread] := by
  rw [parse_instruction h, readInstruction_text h hapart]
  rfl

/-- A line is read as a circuit exactly when its targets are set apart. -/
theorem exists_parse_instruction_iff {i : Instruction} (h : i.IsSized) :
    (∃ c, parse i.text = .ok c) ↔ i.IsSetApart := by
  rw [← readInstruction_text_iff h 1, parse_instruction h]
  constructor
  · rintro ⟨c, hparse⟩
    obtain ⟨j, hread, -⟩ := map_eq_ok.1 hparse
    exact ⟨j, hread⟩
  · rintro ⟨j, hread⟩
    exact ⟨_, map_eq_ok.2 ⟨j, hread, rfl⟩⟩

/-! ## Many lines -/

/-- Lines are read together only when each of them is. -/
theorem exists_readLine_of_mem {lines : List (List Char)} {state last : ReaderState}
    {number : Nat} (h : readLines state number lines = .ok last) {line : List Char}
    (hline : line ∈ lines) : ∃ before number next, readLine before number line = .ok next := by
  induction lines generalizing state number with
  | nil => cases hline
  | cons first rest ih =>
    rw [readLines] at h
    split at h
    · next next hnext =>
      rcases List.mem_cons.1 hline with rfl | hline
      · exact ⟨state, number, next, hnext⟩
      · exact ih h hline
    · cases h

mutual

/-- Every instruction of a circuit has its line, at some indentation. -/
theorem exists_line_of_mem {i : Instruction} (indent : Nat) : (ops : List Operation) →
    i ∈ instructions ops →
      ∃ margin, List.replicate margin ' ' ++ i.text.toList ∈ indentedLines indent ops
  | [], h => by simp [instructions] at h
  | op :: rest, h => by
    rw [instructions, List.mem_append] at h
    rcases h with h | h
    · obtain ⟨margin, hline⟩ := exists_line_of_mem_operation indent op h
      exact ⟨margin, List.mem_append_left _ hline⟩
    · obtain ⟨margin, hline⟩ := exists_line_of_mem indent rest h
      exact ⟨margin, List.mem_append_right _ hline⟩

theorem exists_line_of_mem_operation {i : Instruction} (indent : Nat) : (op : Operation) →
    i ∈ operationInstructions op →
      ∃ margin, List.replicate margin ' ' ++ i.text.toList ∈ operationLines indent op
  | .instruction j, h => by
    obtain rfl : i = j := by simpa [operationInstructions] using h
    exact ⟨indent, by simp [operationLines]⟩
  | .block count body, h => by
    rw [operationInstructions] at h
    obtain ⟨margin, hline⟩ := exists_line_of_mem (indent + 4) body h
    refine ⟨margin, ?_⟩
    rw [operationLines]
    exact List.mem_append_left _ (List.mem_append_right _ hline)

end

/-- A text is read only when the targets of every instruction in it are set apart. -/
theorem isSetApart_of_parse_text {c d : Circuit} (h : Everywhere Instruction.IsSized c)
    (hparse : parse c.text = .ok d) : Everywhere Instruction.IsSetApart c := by
  intro i hi
  obtain ⟨margin, hline⟩ := exists_line_of_mem 0 c hi
  simp only [parse, lines_text h] at hparse
  split at hparse
  · cases hparse
  · next last hlast =>
    obtain ⟨before, number, next, hnext⟩ := exists_readLine_of_mem hlast hline
    rw [readLine_text (h i hi)] at hnext
    obtain ⟨j, hread, -⟩ := map_eq_ok.1 hnext
    exact isSetApart_of_readInstruction (h i hi) hread

/-! ## Counts -/

theorem countsFit_append (c d : List Operation) :
    countsFit (c ++ d) = (countsFit c && countsFit d) := by
  induction c with
  | nil => rfl
  | cons op rest ih => rw [List.cons_append, countsFit, countsFit, ih, Bool.and_assoc]

theorem countsFit_reverse (c : List Operation) : countsFit c.reverse = countsFit c := by
  induction c with
  | nil => rfl
  | cons op rest ih =>
    rw [List.reverse_cons, countsFit_append, ih, countsFit, countsFit, countsFit, Bool.and_true,
      Bool.and_comm]

theorem countsFit_pushReversed (done : List Operation) (i : Instruction) :
    countsFit (pushReversed done i) = countsFit done := by
  obtain ⟨last, rest, rfl, -, hpush⟩ | ⟨-, hpush⟩ := pushReversed_cases done i
  · rw [hpush]
    rfl
  · rw [hpush]
    rfl

mutual

theorem countsFit_addReversed {done : List Operation} (hdone : countsFit done = true) :
    (op : Operation) → operationCountsFit op = true → countsFit (addReversed done op) = true
  | .instruction i, _ => by rwa [addReversed, countsFit_pushReversed]
  | .block 0 body, _ => by rwa [addReversed]
  | .block 1 body, hop => by
    rw [operationCountsFit, Bool.and_eq_true] at hop
    rw [addReversed]
    exact countsFit_addAllReversed hdone body hop.2
  | .block (n + 2) body, hop => by rw [addReversed, countsFit, hop, hdone, Bool.and_self]

theorem countsFit_addAllReversed {done : List Operation} (hdone : countsFit done = true) :
    (ops : List Operation) → countsFit ops = true → countsFit (addAllReversed done ops) = true
  | [], _ => by rwa [addAllReversed]
  | op :: rest, hops => by
    rw [countsFit, Bool.and_eq_true] at hops
    rw [addAllReversed]
    exact countsFit_addAllReversed (countsFit_addReversed hdone op hops.1) rest hops.2

end

/-- The counts of a circuit that is read fit their words. -/
theorem Read.countsFit {c : Circuit} (h : Read c) : countsFit c = true := by
  induction h with
  | nil => rfl
  | push hc hi ih =>
    rwa [Circuit.push, countsFit_reverse, countsFit_pushReversed, countsFit_reverse]
  | @pushRepeat c body count hc hbody hcount ih ihbody =>
    rw [Circuit.pushRepeat, pushOperation, countsFit_reverse]
    apply countsFit_addReversed
    · rwa [countsFit_reverse]
    · simp [operationCountsFit, hcount, ihbody]

/-- A circuit that is read from a text is read again from its own, if its targets are set apart. -/
theorem parse_text_of_parse {text : String} {c : Circuit} (h : parse text = .ok c)
    (hapart : Everywhere Instruction.IsSetApart c) : parse c.text = .ok (reread c) := by
  have hread := Read.of_parse h
  have hlegible : Everywhere IsLegible c := fun i hi => ⟨hread.isSized i hi, hapart i hi⟩
  exact parse_text_of_legible hlegible hread.built.settled hread.countsFit

/-- A circuit that is read from a text is read from its own exactly when its targets are set
apart. -/
theorem exists_parse_text_iff {text : String} {c : Circuit} (h : parse text = .ok c) :
    (∃ d, parse c.text = .ok d) ↔ Everywhere Instruction.IsSetApart c :=
  ⟨fun ⟨_, hd⟩ => isSetApart_of_parse_text (Read.of_parse h).isSized hd,
    fun hapart => ⟨_, parse_text_of_parse h hapart⟩⟩

theorem text_reread (c : Circuit) : text (reread c) = c.text := indentedText_reread 0 c

/-- The line of a made instruction is read back as that instruction if its targets are set apart
from its name and arguments, and refused otherwise.  A circuit that was read from a text is read
again from its own text, which it then has too, if the targets of all its instructions are set
apart, and refused otherwise; without NaN arguments it is read as an equal circuit. -/
theorem legible_iff_isSetApart (name : String) (targets : List Target) (args : List Scalar)
    (text : String) :
    (∀ i, Instruction.make name targets args = .ok i → (∀ t ∈ targets, t.FitsWord) →
      (∀ x ∈ args, x.isNaN = false) →
        ((∃ c, parse i.text = .ok c) ↔ i.IsSetApart) ∧
        (i.IsSetApart → ∃ j, parse i.text = .ok [.instruction j] ∧ j.numEq i = true)) ∧
    ∀ c, parse text = .ok c →
      ((∃ d, parse c.text = .ok d) ↔ Everywhere Instruction.IsSetApart c) ∧
      (Everywhere Instruction.IsSetApart c → ∃ d, parse c.text = .ok d ∧ d.text = c.text ∧
        (Everywhere Instruction.HasNumbers c → Operation.numEqAll d c = true)) := by
  constructor
  · intro i hmake htargets hargs
    obtain ⟨g, -, -, rfl⟩ := Instruction.isChecked_of_make hmake
    have hsized : Instruction.IsSized ⟨g.name, targets, args⟩ := ⟨.of_make hmake, htargets⟩
    refine ⟨exists_parse_instruction_iff hsized, fun hapart => ?_⟩
    exact ⟨_, parse_instruction_of_isSetApart hsized hapart, Instruction.numEq_reread hargs⟩
  · intro c hparse
    refine ⟨exists_parse_text_iff hparse, fun hapart => ?_⟩
    exact ⟨reread c, parse_text_of_parse hparse hapart, text_reread c,
      numEqAll_reread_of_numbers c⟩

/-- An error whose targets open with a combiner, behind its one argument. -/
def combinedError : Instruction :=
  ⟨(Gate.pauliError .x).name, [.combiner, .qubit 3, .combiner, .qubit 5], [1 / 10]⟩

/-- The error in a block, before a product whose combiner joins two targets. -/
def combinedErrorText : String :=
  "REPEAT 2 \x7b\n    X_ERROR(0.1) * 3 * 5\n\x7d\nMPP X0*Z1 Y2\n"

theorem legible_iff_isSetApart_combinedError :
    Instruction.make "x_error" combinedError.targets combinedError.args = .ok combinedError ∧
      (∀ t ∈ combinedError.targets, t.FitsWord) ∧ (∀ x ∈ combinedError.args, x.isNaN = false) ∧
      combinedError.IsSetApart ∧
      (∃ j, parse combinedError.text = .ok [.instruction j] ∧ j.numEq combinedError = true) ∧
      ∃ c d, parse combinedErrorText = .ok c ∧ Everywhere Instruction.IsSetApart c ∧
        Everywhere Instruction.HasNumbers c ∧ parse c.text = .ok d ∧ d.text = c.text ∧
        Operation.numEqAll d c = true := by
  obtain ⟨hinstruction, hcircuit⟩ := legible_iff_isSetApart "x_error" combinedError.targets
    combinedError.args combinedErrorText
  have hmake : Instruction.make "x_error" combinedError.targets combinedError.args =
      .ok combinedError := by decide +kernel
  have htargets : ∀ t ∈ combinedError.targets, t.FitsWord := by decide +kernel
  have hargs : ∀ x ∈ combinedError.args, x.isNaN = false := by decide +kernel
  have hapart : combinedError.IsSetApart := by decide +kernel
  have hread := (hinstruction _ hmake htargets hargs).2 hapart
  refine ⟨hmake, htargets, hargs, hapart, hread, ?_⟩
  have hgood : ((parse combinedErrorText).toOption.any fun c =>
      decide (Everywhere Instruction.IsSetApart c) &&
        decide (Everywhere Instruction.HasNumbers c)) = true := by
    decide +kernel
  cases hc : parse combinedErrorText with
  | error e => simp [hc, Except.toOption] at hgood
  | ok c =>
    simp only [hc, Except.toOption, Option.any_some, Bool.and_eq_true, decide_eq_true_eq] at hgood
    obtain ⟨d, hd, htext, heq⟩ := (hcircuit c hc).2 hgood.1
    exact ⟨c, d, rfl, hgood.1, hgood.2, hd, htext, heq hgood.2⟩

/-- A combiner before the first target of a gate without arguments runs into its name. -/
theorem parse_leadingCombiner :
    (¬ ∀ (name : String) (targets : List Target) (args : List Scalar) (i : Instruction),
      Instruction.make name targets args = .ok i → (∀ t ∈ targets, t.FitsWord) →
        (∀ x ∈ args, x.isNaN = false) →
          ∃ j, parse i.text = .ok [.instruction j] ∧ j.numEq i = true) ∧
    ¬ ∀ (text : String) (c : Circuit), parse text = .ok c →
      ∃ d, parse c.text = .ok d ∧ Operation.numEqAll d c = true := by
  constructor
  · intro hall
    have hmake : Instruction.make "H" [.combiner, .qubit 0] [] =
        .ok ⟨"H", [.combiner, .qubit 0], []⟩ := by decide +kernel
    have hbad : (parse (⟨"H", [.combiner, .qubit 0], []⟩ : Instruction).text).toOption.isNone =
        true := by decide +kernel
    obtain ⟨j, hj, -⟩ := hall _ _ _ _ hmake (by decide +kernel) (by simp)
    simp [hj, Except.toOption] at hbad
  · intro hall
    have hbad : ((parse "H * 0\n").toOption.any fun c =>
        (parse c.text).toOption.isNone) = true := by
      decide +kernel
    cases hc : parse "H * 0\n" with
    | error e => simp [hc, Except.toOption] at hbad
    | ok c =>
      obtain ⟨d, hd, -⟩ := hall _ c hc
      simp [hc, hd, Except.toOption] at hbad

end Circuit

end StabCircuit
