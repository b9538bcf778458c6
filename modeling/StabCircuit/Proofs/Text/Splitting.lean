import Mathlib.Data.List.TakeWhile
import StabCircuit.Text.Blank
import StabCircuit.Text.Integer

/-!
# Splitting text that was put together

How the splitting of text undoes its composition: pieces around separators, words
between blanks, lines, blanks at the ends, leading words and decimal digits.
Names, numbers and targets are made of *plain* characters, which are no blanks and
none of the marks that structure a line.
-/

namespace StabCircuit

namespace Text

/-! ## Plain characters -/

/-- Whether a character can occur in a name, a number or a target. -/
def isPlain (c : Char) : Bool := c.isAlphanum || ['_', '.', '-', '[', ']'].contains c

/-- The text has plain characters only. -/
def IsPlain (text : List Char) : Prop := ∀ c ∈ text, isPlain c = true

instance : DecidablePred IsPlain := fun text =>
  decidable_of_iff (text.all isPlain = true) List.all_eq_true

theorem isPlain_append {s t : List Char} : IsPlain (s ++ t) ↔ IsPlain s ∧ IsPlain t :=
  List.forall_mem_append

theorem isPlain_of_isDigit {c : Char} (h : c.isDigit = true) : isPlain c = true := by
  simp [isPlain, Char.isAlphanum, h]

theorem isBlank_eq_false {c : Char} (h : isPlain c = true) : isBlank c = false := by
  have hrange : 33 ≤ c.toNat ∧ c.toNat ≤ 126 := by
    unfold isPlain Char.isAlphanum Char.isAlpha Char.isUpper Char.isLower Char.isDigit at h
    simp only [List.contains_eq_mem, Bool.or_eq_true, Bool.and_eq_true, decide_eq_true_eq,
      List.mem_cons, List.not_mem_nil, or_false, UInt32.le_iff_toNat_le, ge_iff_le] at h
    have hval : c.toNat = c.val.toNat := rfl
    rcases h with ((h | h) | h) | (rfl | rfl | rfl | rfl | rfl)
    · simp at h
      omega
    · simp at h
      omega
    · simp at h
      omega
    all_goals decide
  have hnone : ∀ range ∈ blankRanges, c.toNat < range.1 ∨ range.2 < c.toNat := by
    simp only [blankRanges, List.forall_mem_cons]
    refine ⟨?_, ?_, ?_, ?_, ?_, ?_, ?_, ?_, ?_, ?_, by simp⟩ <;> omega
  rw [isBlank, List.any_eq_false]
  intro range hrange
  have := hnone range hrange
  simp only [Bool.and_eq_true, decide_eq_true_eq, not_and]
  omega

theorem ne_of_isPlain {c d : Char} (hc : isPlain c = true) (hd : isPlain d = false) : c ≠ d := by
  rintro rfl
  rw [hc] at hd
  cases hd

theorem IsPlain.not_mem {text : List Char} (h : IsPlain text) {d : Char} (hd : isPlain d = false) :
    d ∉ text := by
  intro hmem
  rw [h d hmem] at hd
  cases hd

/-! ## Spans -/

theorem takeWhile_span {p : Char → Bool} {word rest : List Char} (hword : ∀ c ∈ word, p c = true)
    (hrest : ∀ c ∈ rest.head?, p c = false) : (word ++ rest).takeWhile p = word := by
  rw [List.takeWhile_append_of_pos hword]
  cases rest with
  | nil => simp
  | cons c rest => simp [hrest c rfl]

theorem dropWhile_span {p : Char → Bool} {word rest : List Char} (hword : ∀ c ∈ word, p c = true)
    (hrest : ∀ c ∈ rest.head?, p c = false) : (word ++ rest).dropWhile p = rest := by
  rw [List.dropWhile_append_of_pos hword]
  cases rest with
  | nil => simp
  | cons c rest => simp [hrest c rfl]

/-- A text is its first word and a rest that begins with a blank. -/
theorem exists_word_append (text : List Char) :
    ∃ word rest, text = word ++ rest ∧ (∀ c ∈ word, isBlank c = false) ∧
      ∀ c ∈ rest.head?, isBlank c = true := by
  refine ⟨text.takeWhile fun c => !isBlank c, text.dropWhile fun c => !isBlank c,
    List.takeWhile_append_dropWhile.symm, fun c hc => ?_, fun c hc => ?_⟩
  · simpa using List.mem_takeWhile_imp hc
  · have hnot := List.head?_dropWhile_not (fun c => !isBlank c) text
    rw [Option.mem_def.1 hc] at hnot
    simpa using hnot

/-- Blanks around a text that neither begins nor ends with one are dropped. -/
theorem trim_padded {before text after : List Char} (hbefore : ∀ c ∈ before, isBlank c = true)
    (hafter : ∀ c ∈ after, isBlank c = true) (hhead : ∀ c ∈ text.head?, isBlank c = false)
    (hlast : ∀ c ∈ text.getLast?, isBlank c = false) : trim (before ++ text ++ after) = text := by
  cases text with
  | nil =>
    have hall : ∀ c ∈ before ++ after, isBlank c = true :=
      List.forall_mem_append.2 ⟨hbefore, hafter⟩
    have hnil : (before ++ after).dropWhile isBlank = [] := List.dropWhile_eq_nil_iff.2 hall
    simp [trim, trimLeft, trimRight, hnil]
  | cons a rest =>
    have hleft : trimLeft (before ++ (a :: rest) ++ after) = a :: rest ++ after := by
      rw [trimLeft, List.append_assoc, dropWhile_span hbefore]
      exact hhead
    have hright : ∀ c ∈ (a :: rest).reverse.head?, isBlank c = false := by
      rwa [List.head?_reverse]
    rw [trim, hleft, trimRight, List.reverse_append, dropWhile_span (by simpa using hafter) hright,
      List.reverse_reverse]

theorem IsPlain.trim_padded {before text after : List Char} (h : IsPlain text)
    (hbefore : ∀ c ∈ before, isBlank c = true) (hafter : ∀ c ∈ after, isBlank c = true) :
    trim (before ++ text ++ after) = text := by
  apply Text.trim_padded hbefore hafter
  · intro c hc
    exact isBlank_eq_false (h c (List.mem_of_head? hc))
  · intro c hc
    exact isBlank_eq_false (h c (List.mem_of_getLast? hc))

theorem IsPlain.trim {text : List Char} (h : IsPlain text) : Text.trim text = text := by
  simpa using h.trim_padded (List.forall_mem_nil _) (List.forall_mem_nil _)

/-! ## Pieces, words and lines -/

theorem pieces_ne_nil (p : Char → Bool) (text : List Char) : pieces p text ≠ [] := by
  cases text with
  | nil => simp [pieces]
  | cons c rest =>
    rw [pieces]
    split
    · simp
    · split <;> simp

theorem pieces_cons_separator {p : Char → Bool} {c : Char} (hc : p c = true) (rest : List Char) :
    pieces p (c :: rest) = [] :: pieces p rest := by
  rw [pieces, if_pos hc]

theorem pieces_append {p : Char → Bool} {word : List Char} (hword : ∀ c ∈ word, p c = false)
    {rest piece : List Char} {others : List (List Char)} (hrest : pieces p rest = piece :: others) :
    pieces p (word ++ rest) = (word ++ piece) :: others := by
  induction word with
  | nil => exact hrest
  | cons c word ih =>
    rw [List.forall_mem_cons] at hword
    rw [List.cons_append, pieces, if_neg (by simp [hword.1]), ih hword.2]
    rfl

theorem pieces_of_forall {p : Char → Bool} {word : List Char} (hword : ∀ c ∈ word, p c = false) :
    pieces p word = [word] := by
  have h := @pieces_append p word hword [] [] [] rfl
  simpa using h

theorem pieces_append_separator {p : Char → Bool} {word : List Char} {c : Char}
    (hword : ∀ c ∈ word, p c = false) (hc : p c = true) (rest : List Char) :
    pieces p (word ++ c :: rest) = word :: pieces p rest := by
  rw [pieces_append hword (pieces_cons_separator hc rest), List.append_nil]

theorem words_cons_blank {c : Char} (hc : isBlank c = true) (rest : List Char) :
    words (c :: rest) = words rest := by
  rw [words, pieces_cons_separator hc]
  rfl

theorem words_append {word rest : List Char} (hne : word ≠ [])
    (hword : ∀ c ∈ word, isBlank c = false) (hrest : ∀ c ∈ rest.head?, isBlank c = true) :
    words (word ++ rest) = word :: words rest := by
  have hkept : (!word.isEmpty) = true := by simpa using hne
  cases rest with
  | nil => simp [words, pieces_of_forall hword, hkept, pieces]
  | cons c rest =>
    have hc : isBlank c = true := hrest c rfl
    rw [words_cons_blank hc, words, pieces_append_separator hword hc, List.filter_cons,
      if_pos hkept]
    rfl

theorem pieces_lines {lines : List (List Char)} (h : ∀ line ∈ lines, '\n' ∉ line) :
    pieces (· == '\n') (lines.flatMap (· ++ ['\n'])) = lines ++ [[]] := by
  induction lines with
  | nil => rfl
  | cons line lines ih =>
    rw [List.forall_mem_cons] at h
    have hline : ∀ c ∈ line, (c == '\n') = false := by
      intro c hc
      rw [beq_eq_false_iff_ne]
      rintro rfl
      exact h.1 hc
    rw [List.flatMap_cons, List.append_assoc, List.singleton_append,
      pieces_append_separator hline rfl, ih h.2, List.cons_append]

/-- Lines that were ended by line feeds are read back. -/
theorem lines_flatMap {lines : List (List Char)} (h : ∀ line ∈ lines, '\n' ∉ line) :
    Text.lines (lines.flatMap (· ++ ['\n'])) = lines := by
  simp [Text.lines, pieces_lines h]

theorem pieces_append_cons_separator {p : Char → Bool} {c : Char} (hc : p c = true)
    (before after : List Char) :
    pieces p (before ++ c :: after) = pieces p before ++ pieces p after := by
  induction before with
  | nil => exact pieces_cons_separator hc after
  | cons d before ih =>
    rw [List.cons_append, pieces, pieces, ih]
    split
    · rfl
    · obtain ⟨piece, others, hpieces⟩ := List.exists_cons_of_ne_nil (pieces_ne_nil p before)
      rw [hpieces]
      rfl

/-- The pieces between line feeds are the lines, up to an empty one at the end. -/
theorem pieces_eq_lines (text : List Char) :
    pieces (· == '\n') text = Text.lines text ∨
      pieces (· == '\n') text = Text.lines text ++ [[]] := by
  rw [Text.lines]
  split
  · next hlast =>
    obtain ⟨front, hfront⟩ := List.getLast?_eq_some_iff.1 (eq_of_beq hlast)
    rw [hfront, List.dropLast_concat]
    exact .inr rfl
  · exact .inl rfl

theorem lines_append_newline (before after : List Char) :
    Text.lines (before ++ '\n' :: after) = pieces (· == '\n') before ++ Text.lines after := by
  have hne := pieces_ne_nil (· == '\n') after
  have hpieces : pieces (· == '\n') (before ++ '\n' :: after) =
      pieces (· == '\n') before ++ pieces (· == '\n') after :=
    pieces_append_cons_separator (by simp) before after
  rw [Text.lines, Text.lines, hpieces, List.getLast?_append, List.getLast?_eq_some_getLast hne,
    Option.some_or]
  split
  · exact List.dropLast_append_of_ne_nil hne
  · rfl

/-! ## Leading words and closing marks -/

theorem dropLead?_append (lead rest : List Char) : dropLead? lead (lead ++ rest) = some rest := by
  induction lead with
  | nil => rfl
  | cons c lead ih => simp [dropLead?, ih]

theorem eq_append_of_dropLead? {lead text rest : List Char} (h : dropLead? lead text = some rest) :
    text = lead ++ rest := by
  induction lead generalizing text with
  | nil =>
    cases h
    rfl
  | cons a lead ih =>
    cases text with
    | nil => simp [dropLead?] at h
    | cons c text =>
      rw [dropLead?] at h
      split at h
      · next hac => rw [ih h, hac, List.cons_append]
      · cases h

theorem dropLast?_append (last : Char) (text : List Char) :
    dropLast? last (text ++ [last]) = some text := by
  simp [dropLast?]

/-! ## Decimal digits -/

theorem ofDigits_eq_ofDigitChars (digits : List Char) :
    ofDigits digits = Nat.ofDigitChars 10 digits 0 := by
  rw [ofDigits, Nat.ofDigitChars_eq_foldl]
  rfl

theorem ofDigits_toDigits (n : Nat) : ofDigits (Nat.toDigits 10 n) = n := by
  rw [ofDigits_eq_ofDigitChars, Nat.ofDigitChars_ten_toDigits]

theorem isDigit_of_mem_toDigits {n : Nat} {c : Char} (h : c ∈ Nat.toDigits 10 n) :
    c.isDigit = true :=
  Nat.isDigit_of_mem_toDigits (by decide) (by decide) h

theorem isPlain_toDigits (n : Nat) : IsPlain (Nat.toDigits 10 n) :=
  fun _ hc => isPlain_of_isDigit (isDigit_of_mem_toDigits hc)

theorem digits?_toDigits (n : Nat) : digits? (Nat.toDigits 10 n) = some n := by
  have hne : (Nat.toDigits 10 n).isEmpty = false := by simp
  have hall : (Nat.toDigits 10 n).all Char.isDigit = true :=
    List.all_eq_true.2 fun _ hc => isDigit_of_mem_toDigits hc
  simp [digits?, hne, hall, ofDigits_toDigits]

theorem natBelow?_toDigits {n bound : Nat} (h : n < bound) :
    natBelow? bound (Nat.toDigits 10 n) = some n := by
  have hsign : ∀ rest, Nat.toDigits 10 n ≠ '+' :: rest := by
    intro rest hplus
    have hdigit : '+'.isDigit = true := isDigit_of_mem_toDigits (n := n) (by simp [hplus])
    simp [Char.isDigit] at hdigit
  unfold natBelow?
  split
  · next rest hplus => exact absurd hplus (hsign rest)
  · simp [digits?_toDigits, h]

theorem lt_of_natBelow? {bound n : Nat} {text : List Char} (h : natBelow? bound text = some n) :
    n < bound := by
  simpa using (Option.filter_eq_some_iff.1 h).2

/-- What is read lies within the bound. -/
theorem neg_le_of_intWithin? {half : Nat} {text : List Char} {offset : Int}
    (h : intWithin? half text = some offset) : -(half : Int) ≤ offset := by
  unfold intWithin? at h
  split at h
  · next rest =>
    obtain ⟨n, -, h⟩ := Option.bind_eq_some_iff.1 h
    split at h
    · next hn =>
      cases h
      omega
    · cases h
  · obtain ⟨n, -, rfl⟩ : ∃ n : Nat, natBelow? half text = some n ∧ (n : Int) = offset := by
      simpa [Option.bind_eq_some_iff] using h
    omega

theorem intWithin?_neg {n half : Nat} (h : n ≤ half) :
    intWithin? half ('-' :: Nat.toDigits 10 n) = some (-(n : Int)) := by
  simp [intWithin?, digits?_toDigits, h]

end Text

end StabCircuit
