import StabCircuit.Proofs.Circuit.RoundTrip

/-!
# Circuits one after another

Appending circuits is associative, with merges across the seams and blocks that
dissolve: appending what was appended before is appending in turn.  The reader
appends to the bottom of a stack of open blocks, and nothing it does depends on
what that bottom holds.  So a text that follows another is read as it would be
alone, on top of the first.
-/

namespace StabCircuit

namespace Circuit

/-! ## Appending in turn -/

theorem addAllReversed_append (base c d : List Operation) :
    addAllReversed base (c ++ d) = addAllReversed (addAllReversed base c) d := by
  induction c generalizing base with
  | nil => rw [List.nil_append, addAllReversed]
  | cons op rest ih => rw [List.cons_append, addAllReversed, addAllReversed, ih]

theorem addAllReversed_reverse_cons (base done : List Operation) (op : Operation) :
    addAllReversed base (op :: done).reverse =
      addReversed (addAllReversed base done.reverse) op := by
  rw [List.reverse_cons, addAllReversed_append, addAllReversed, addAllReversed]

/-- An instruction that was appended to operations follows them when they are appended. -/
theorem addAllReversed_pushReversed (base done : List Operation) (i : Instruction) :
    addAllReversed base (pushReversed done i).reverse =
      pushReversed (addAllReversed base done.reverse) i := by
  obtain ⟨last, rest, rfl, hfuses, hpush⟩ | ⟨-, hpush⟩ := pushReversed_cases done i
  · rw [hpush, addAllReversed_reverse_cons, addAllReversed_reverse_cons, addReversed, addReversed,
      pushReversed_pushReversed hfuses]
  · rw [hpush, addAllReversed_reverse_cons, addReversed]

mutual

/-- An operation that was appended to operations follows them when they are appended. -/
theorem addAllReversed_addReversed (base done : List Operation) : (op : Operation) →
    addAllReversed base (addReversed done op).reverse =
      addReversed (addAllReversed base done.reverse) op
  | .instruction i => by
    rw [addReversed, addReversed]
    exact addAllReversed_pushReversed base done i
  | .block 0 body => by rw [addReversed, addReversed]
  | .block 1 body => by
    rw [addReversed, addReversed]
    exact addAllReversed_addAllReversed base done body
  | .block (n + 2) body => by rw [addReversed, addAllReversed_reverse_cons]

theorem addAllReversed_addAllReversed (base done : List Operation) : (ops : List Operation) →
    addAllReversed base (addAllReversed done ops).reverse =
      addAllReversed (addAllReversed base done.reverse) ops
  | [] => by rw [addAllReversed, addAllReversed]
  | op :: rest => by
    rw [addAllReversed, addAllReversed, addAllReversed_addAllReversed base _ rest,
      addAllReversed_addReversed base done op]

end

theorem extend_assoc (a b c : Circuit) : (a.extend b).extend c = a.extend (b.extend c) := by
  simp only [extend, List.reverse_reverse, addAllReversed_addAllReversed]

theorem extend_nil (c : Circuit) : c.extend [] = c := by
  rw [extend, addAllReversed, List.reverse_reverse]

theorem push_eq_extend (c : Circuit) (i : Instruction) :
    c.push i = c.extend [.instruction i] := by
  rw [push, extend, addAllReversed, addReversed, addAllReversed]

theorem pushRepeat_eq_extend (c : Circuit) (count : Nat) (body : Circuit) :
    c.pushRepeat count body = c.extend [.block count body] := by
  rw [pushRepeat, pushOperation, extend, addAllReversed, addAllReversed]

/-- Circuits that grow from the empty one, by any instructions, bodies and circuits. -/
inductive Grown : Circuit → Prop
  /-- The circuit without operations. -/
  | nil : Grown []
  /-- An instruction is appended. -/
  | push {c : Circuit} (hc : Grown c) (i : Instruction) : Grown (c.push i)
  /-- A body is appended, to run a number of times. -/
  | pushRepeat {c : Circuit} (hc : Grown c) (count : Nat) (body : Circuit) :
      Grown (c.pushRepeat count body)
  /-- The operations of another circuit are appended. -/
  | extend {c : Circuit} (hc : Grown c) (other : Circuit) : Grown (c.extend other)

theorem nil_extend_extend {c : Circuit} (hc : extend [] c = c) (other : Circuit) :
    extend [] (c.extend other) = c.extend other := by
  rw [← extend_assoc, hc]

/-- A circuit that grew from the empty one grows from it again. -/
theorem Grown.nil_extend {c : Circuit} (h : Grown c) : Circuit.extend [] c = c := by
  induction h with
  | nil => exact extend_nil []
  | push hc i ih =>
    rw [push_eq_extend]
    exact nil_extend_extend ih _
  | pushRepeat hc count body ih =>
    rw [pushRepeat_eq_extend]
    exact nil_extend_extend ih _
  | extend hc other ih => exact nil_extend_extend ih other

/-! ## Lines read on top of other operations -/

theorem readArgs_eq_ok {number : Nat} {inner : List Char} {args : List Scalar}
    (h : readArgs number inner = .ok args) (other : Nat) : readArgs other inner = .ok args := by
  apply mapM_eq_ok_of_imp _ h
  intro a x hx
  split at hx
  · exact hx
  · cases hx

theorem readHead_eq_ok {number : Nat} {head : List Char} {result : List Char × List Scalar}
    (h : readHead number head = .ok result) (other : Nat) : readHead other head = .ok result := by
  simp only [readHead] at h ⊢
  split at h
  · exact h
  · split at h
    · cases h
    · obtain ⟨args, hargs, rfl⟩ := map_eq_ok.1 h
      exact map_eq_ok.2 ⟨args, readArgs_eq_ok hargs other, rfl⟩

theorem readTargets_eq_ok {number : Nat} {text : List Char} {targets : List Target}
    (h : readTargets number text = .ok targets) (other : Nat) :
    readTargets other text = .ok targets := by
  apply mapM_eq_ok_of_imp _ h
  intro word target hword
  exact atLine_eq_ok.2 (atLine_eq_ok.1 hword)

/-- The number of a line shows in errors only. -/
theorem readInstruction_eq_ok {number : Nat} {line : List Char} {i : Instruction}
    (h : readInstruction number line = .ok i) (other : Nat) :
    readInstruction other line = .ok i := by
  unfold readInstruction at h ⊢
  obtain ⟨result, hhead, h⟩ := bind_eq_ok.1 h
  obtain ⟨targets, htargets, h⟩ := bind_eq_ok.1 h
  refine bind_eq_ok.2 ⟨result, readHead_eq_ok hhead other, ?_⟩
  refine bind_eq_ok.2 ⟨targets, readTargets_eq_ok htargets other, ?_⟩
  exact atLine_eq_ok.2 (atLine_eq_ok.1 h)

/-- One state of the reader is another with operations below those of its outermost block. -/
inductive Above (base : List Operation) : ReaderState → ReaderState → Prop
  /-- No block is open. -/
  | bottom (m n : Nat) (ops : List Operation) :
      Above base ⟨⟨m, ops⟩, []⟩ ⟨⟨n, addAllReversed base ops.reverse⟩, []⟩
  /-- The innermost open block stands on others. -/
  | nested (current : OpenBlock) (inner : List OpenBlock) (m n : Nat) (ops : List Operation) :
      Above base ⟨current, inner ++ [⟨m, ops⟩]⟩
        ⟨current, inner ++ [⟨n, addAllReversed base ops.reverse⟩]⟩

theorem Above.opened {base : List Operation} {state upper : ReaderState}
    (h : Above base state upper) (count : Nat) :
    Above base ⟨⟨count, []⟩, state.current :: state.outer⟩
      ⟨⟨count, []⟩, upper.current :: upper.outer⟩ := by
  cases h with
  | bottom m n ops => exact .nested ⟨count, []⟩ [] m n ops
  | nested current inner m n ops => exact .nested ⟨count, []⟩ (current :: inner) m n ops

theorem Above.pushed {base : List Operation} {state upper : ReaderState}
    (h : Above base state upper) (i : Instruction) :
    Above base ⟨⟨state.current.count, pushReversed state.current.operations i⟩, state.outer⟩
      ⟨⟨upper.current.count, pushReversed upper.current.operations i⟩, upper.outer⟩ := by
  cases h with
  | bottom m n ops =>
    rw [← addAllReversed_pushReversed]
    exact .bottom m n _
  | nested current inner m n ops => exact .nested _ inner m n ops

/-- A block that closes does so above the same operations. -/
theorem Above.closed {base : List Operation} {state upper : ReaderState}
    (h : Above base state upper) {parent : OpenBlock} {outer : List OpenBlock}
    (houter : state.outer = parent :: outer) :
    ∃ parent' outer', upper.outer = parent' :: outer' ∧
      Above base
        ⟨⟨parent.count, addReversed parent.operations
          (.block state.current.count state.current.operations.reverse)⟩, outer⟩
        ⟨⟨parent'.count, addReversed parent'.operations
          (.block upper.current.count upper.current.operations.reverse)⟩, outer'⟩ := by
  cases h with
  | bottom m n ops => cases houter
  | nested current inner m n ops =>
    cases inner with
    | nil =>
      cases houter
      refine ⟨_, [], rfl, ?_⟩
      rw [← addAllReversed_addReversed]
      exact .bottom m n _
    | cons block inner =>
      cases houter
      exact ⟨parent, _, rfl, .nested _ inner m n ops⟩

theorem Above.eq_bottom {base : List Operation} {state upper : ReaderState}
    (h : Above base state upper) (houter : state.outer = []) :
    ∃ n, upper = ⟨⟨n, addAllReversed base state.current.operations.reverse⟩, []⟩ := by
  cases h with
  | bottom m n ops => exact ⟨n, rfl⟩
  | nested current inner m n ops => simp at houter

/-- A line does to a state what it does to the state below, under any number. -/
theorem Above.readLine {base : List Operation} {state upper next : ReaderState}
    (h : Above base state upper) {number : Nat} {raw : List Char}
    (hread : readLine state number raw = .ok next) :
    ∃ upper', (∀ other, readLine upper other raw = .ok upper') ∧ Above base next upper' := by
  simp only [Circuit.readLine] at hread ⊢
  split at hread
  · next hblank =>
    cases hread
    exact ⟨upper, fun other => if_pos hblank, h⟩
  next hblank =>
  simp only [if_neg hblank]
  split at hread
  · next hbrace =>
    simp only [if_pos hbrace]
    split at hread
    · cases hread
    · next parent outer houter =>
      cases hread
      obtain ⟨parent', outer', hupper, habove⟩ := h.closed houter
      rw [hupper]
      exact ⟨_, fun _ => rfl, habove⟩
  next hbrace =>
  simp only [if_neg hbrace]
  split at hread
  · next rest hrepeat =>
    split at hread
    · next count hcount =>
      cases hread
      exact ⟨_, fun _ => rfl, h.opened count⟩
    · cases hread
  · next hrepeat =>
    obtain ⟨i, hi, rfl⟩ := map_eq_ok.1 hread
    simp only [readInstruction_eq_ok hi, Except.map]
    exact ⟨_, fun _ => rfl, h.pushed i⟩

theorem Above.readLines {base : List Operation} {lines : List (List Char)}
    {state upper last : ReaderState} (h : Above base state upper) {number : Nat}
    (hread : readLines state number lines = .ok last) :
    ∃ upper', Reads upper lines upper' ∧ Above base last upper' := by
  induction lines generalizing state upper number with
  | nil =>
    cases hread
    exact ⟨upper, fun _ => rfl, h⟩
  | cons line rest ih =>
    rw [Circuit.readLines] at hread
    split at hread
    · next next hnext =>
      obtain ⟨middle, hline, hmiddle⟩ := h.readLine hnext
      obtain ⟨upper', hrest, hlast⟩ := ih hmiddle hread
      exact ⟨upper', (Reads.line hline).append hrest, hlast⟩
    · cases hread

/-! ## Texts one after another -/

theorem readLine_nil (state : ReaderState) (number : Nat) : readLine state number [] = .ok state :=
  rfl

/-- A line feed at the end of a text opens a blank line, which is skipped. -/
theorem readLines_pieces {text : List Char} {state last : ReaderState} {number : Nat}
    (h : readLines state number (Text.lines text) = .ok last) :
    readLines state number (Text.pieces (· == '\n') text) = .ok last := by
  rcases Text.pieces_eq_lines text with hpieces | hpieces
  · rwa [hpieces]
  · rw [hpieces, readLines_append h, readLines, readLine_nil]
    rfl

theorem parse_eq_ok {text : String} {c : Circuit} :
    parse text = .ok c ↔ ∃ count,
      readLines ⟨⟨1, []⟩, []⟩ 1 (Text.lines text.toList) = .ok ⟨⟨count, c.reverse⟩, []⟩ := by
  simp only [parse]
  constructor
  · intro h
    split at h
    · cases h
    · next state hstate =>
      split at h
      · next houter =>
        cases h
        rw [hstate]
        obtain ⟨⟨count, ops⟩, outer⟩ := state
        cases List.isEmpty_iff.1 houter
        exact ⟨count, by rw [List.reverse_reverse]⟩
      · cases h
  · rintro ⟨count, h⟩
    simp [h]

theorem parse_append_newline {t₁ t₂ : String} {c₁ c₂ : Circuit} (h₁ : parse t₁ = .ok c₁)
    (h₂ : parse t₂ = .ok c₂) : parse (t₁ ++ "\n" ++ t₂) = .ok (c₁.extend c₂) := by
  obtain ⟨m, h₁⟩ := parse_eq_ok.1 h₁
  obtain ⟨n, h₂⟩ := parse_eq_ok.1 h₂
  -- the second text is read from the empty state, here on top of the first circuit
  have hstart : Above c₁.reverse ⟨⟨1, []⟩, []⟩ ⟨⟨m, c₁.reverse⟩, []⟩ := .bottom 1 m []
  obtain ⟨upper, hreads, habove⟩ := hstart.readLines h₂
  have hlines : Text.lines (t₁ ++ "\n" ++ t₂).toList =
      Text.pieces (· == '\n') t₁.toList ++ Text.lines t₂.toList := by
    rw [String.toList_append, String.toList_append, List.append_assoc]
    exact Text.lines_append_newline _ _
  obtain ⟨count, rfl⟩ := habove.eq_bottom rfl
  refine parse_eq_ok.2 ⟨count, ?_⟩
  rw [hlines, readLines_append (readLines_pieces h₁), hreads, extend, List.reverse_reverse,
    List.reverse_reverse]

/-- Circuits form a monoid under appending, and reading takes texts on successive lines to
circuits one after another. -/
theorem extend_monoid_parse_homomorphism :
    (∀ a b c : Circuit, (a.extend b).extend c = a.extend (b.extend c)) ∧
    (∀ c : Circuit, Grown c → extend [] c = c ∧ c.extend [] = c) ∧
    (∀ (t₁ t₂ : String) (c₁ c₂ : Circuit), parse t₁ = .ok c₁ → parse t₂ = .ok c₂ →
      parse (t₁ ++ "\n" ++ t₂) = .ok (c₁.extend c₂)) := by
  refine ⟨extend_assoc, ?_, ?_⟩
  · intro c hc
    exact ⟨hc.nil_extend, extend_nil c⟩
  · intro t₁ t₂ c₁ c₂ h₁ h₂
    exact parse_append_newline h₁ h₂

/-- A block, and a measurement with a negative zero that stands last. -/
def seamText : String := "H 0\nREPEAT 2 \x7b\n  M(-0.0) 1\n\x7d\nM(-0.0) 0 # last"

/-- A block that runs once, with a measurement that stands first. -/
def followingText : String := "REPEAT 1 \x7b\n  M(0) 1\n\x7d\n\nTICK\n"

theorem extend_monoid_parse_homomorphism_seam :
    ∃ c₁ c₂, parse seamText = .ok c₁ ∧ parse followingText = .ok c₂ ∧
      parse (seamText ++ "\n" ++ followingText) = .ok (c₁.extend c₂) := by
  have hseam : (parse seamText).isOk = true := by decide +kernel
  have hfollowing : (parse followingText).isOk = true := by decide +kernel
  cases h₁ : parse seamText with
  | error e => simp [h₁, Except.isOk, Except.toBool] at hseam
  | ok c₁ =>
    cases h₂ : parse followingText with
    | error e => simp [h₂, Except.isOk, Except.toBool] at hfollowing
    | ok c₂ => exact ⟨c₁, c₂, rfl, rfl, extend_monoid_parse_homomorphism.2.2 _ _ c₁ c₂ h₁ h₂⟩

end Circuit

end StabCircuit
