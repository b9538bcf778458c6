import Mathlib.Data.List.Basic
import Mathlib.Data.List.Chain
import StabCircuit.Proofs.Circuit.Parsed
import StabCircuit.Proofs.Scalar.ReadBack

/-!
# Lines of circuit text

The line of an instruction splits into its name, its arguments and its targets, and
each of these is read back as it was.
-/

namespace StabCircuit

/-! ## Targets -/

namespace Target

/-- The indices fit their words, and records are counted backwards. -/
def FitsWord : Target → Prop
  | qubit q | pauli _ q => q < Text.wordSize
  | record offset => -(Text.halfWord : Int) ≤ offset ∧ offset < 0
  | sweep bit => bit < Text.wordSize
  | combiner => True

instance : DecidablePred FitsWord
  | qubit q => inferInstanceAs (Decidable (q < Text.wordSize))
  | pauli _ q => inferInstanceAs (Decidable (q < Text.wordSize))
  | record offset => inferInstanceAs (Decidable (-(Text.halfWord : Int) ≤ offset ∧ offset < 0))
  | sweep bit => inferInstanceAs (Decidable (bit < Text.wordSize))
  | combiner => .isTrue trivial

theorem toList_toString (n : Nat) : (toString n).toList = Nat.toDigits 10 n := by
  rw [Nat.toString_eq_ofList_toDigits, String.toList_ofList]

theorem toList_toString_neg {n : Nat} (h : 0 < n) :
    (toString (-(n : Int))).toList = '-' :: Nat.toDigits 10 n := by
  obtain ⟨m, rfl⟩ : ∃ m, n = m + 1 := ⟨n - 1, by omega⟩
  have hneg : toString (-((m + 1 : Nat) : Int)) = "-" ++ Nat.repr (m + 1) := rfl
  rw [hneg, String.toList_append, Nat.toList_repr]
  rfl

theorem exists_neg_of_neg {offset : Int} (h : offset < 0) :
    ∃ n : Nat, 0 < n ∧ offset = -(n : Int) := ⟨offset.natAbs, by omega, by omega⟩

/-- The texts of targets: digits, a letter and digits, or digits in brackets. -/
theorem toList_text_record {n : Nat} (h : 0 < n) :
    (record (-(n : Int))).text.toList = "rec[".toList ++ ('-' :: Nat.toDigits 10 n ++ [']']) := by
  rw [text, String.toList_append, String.toList_append, toList_toString_neg h, List.append_assoc]
  rfl

theorem toList_text_sweep (bit : Nat) :
    (sweep bit).text.toList = "sweep[".toList ++ (Nat.toDigits 10 bit ++ [']']) := by
  rw [text, String.toList_append, String.toList_append, toList_toString, List.append_assoc]
  rfl

theorem toList_text_pauli (b : Basis) (q : Nat) :
    (pauli b q).text.toList = b.letter :: Nat.toDigits 10 q := by
  rw [text, String.toList_append, toList_toString, Basis.text, String.toList_singleton]
  rfl

/-- The text of a target other than a combiner has plain characters, at least one. -/
theorem isPlain_text {t : Target} (ht : t.FitsWord) (hcombiner : t.isCombiner = false) :
    Text.IsPlain t.text.toList ∧ t.text.toList ≠ [] := by
  cases t with
  | qubit q =>
    rw [text, toList_toString]
    exact ⟨Text.isPlain_toDigits q, by simp⟩
  | pauli b q =>
    rw [toList_text_pauli]
    refine ⟨List.forall_mem_cons.2 ⟨?_, Text.isPlain_toDigits q⟩, by simp⟩
    cases b <;> decide
  | record offset =>
    obtain ⟨n, hn, rfl⟩ := exists_neg_of_neg ht.2
    rw [toList_text_record hn]
    refine ⟨Text.isPlain_append.2 ⟨by decide, Text.isPlain_append.2 ⟨?_, by decide⟩⟩, by simp⟩
    exact List.forall_mem_cons.2 ⟨by decide, Text.isPlain_toDigits n⟩
  | sweep bit =>
    rw [toList_text_sweep]
    refine ⟨Text.isPlain_append.2 ⟨by decide, Text.isPlain_append.2 ⟨?_, by decide⟩⟩, by simp⟩
    exact Text.isPlain_toDigits bit
  | combiner => cases hcombiner

theorem bracketed?_eq_none {lead : String} {c : Char} {rest : List Char}
    (h : lead.toList.head? ≠ some c) (hne : lead.toList ≠ []) :
    bracketed? lead (c :: rest) = none := by
  obtain ⟨a, tail, hlead⟩ := List.exists_cons_of_ne_nil hne
  have hac : a ≠ c := by
    rintro rfl
    exact h (by rw [hlead]; rfl)
  simp [bracketed?, hlead, Text.dropLead?, hac]

/-- Reading goes on to letters and digits when a text opens with neither bracketed word. -/
theorem bracketed?_plain {c : Char} (rest : List Char) (hr : c ≠ 'r') (hs : c ≠ 's') :
    bracketed? "rec[" (c :: rest) = none ∧ bracketed? "sweep[" (c :: rest) = none := by
  constructor
  · exact bracketed?_eq_none (by simpa using hr.symm) (by decide)
  · exact bracketed?_eq_none (by simpa using hs.symm) (by decide)

theorem read_text_qubit {q : Nat} (h : q < Text.wordSize) :
    read (qubit q).text.toList = .ok (qubit q) := by
  obtain ⟨c, rest, hdigits⟩ :=
    List.exists_cons_of_ne_nil (show Nat.toDigits 10 q ≠ [] by simp)
  have hc : c.isDigit = true := Text.isDigit_of_mem_toDigits (n := q) (by simp [hdigits])
  have hother : ∀ d : Char, d.isDigit = false → c ≠ d := by
    rintro d hd rfl
    rw [hc] at hd
    cases hd
  have halpha : c.isAlpha = false := by
    unfold Char.isAlpha Char.isUpper Char.isLower
    unfold Char.isDigit at hc
    simp only [Bool.and_eq_true, decide_eq_true_eq, ge_iff_le, Bool.or_eq_false_iff,
      Bool.and_eq_false_iff, decide_eq_false_iff_not, UInt32.le_iff_toNat_le] at hc ⊢
    simp at hc ⊢
    omega
  obtain ⟨hrec, hsweep⟩ := bracketed?_plain rest (hother 'r' rfl) (hother 's' rfl)
  have hread := Text.natBelow?_toDigits h
  have hstar : c ≠ '*' := hother '*' rfl
  rw [text, toList_toString]
  rw [hdigits] at hread ⊢
  simp [read, hstar, hrec, hsweep, halpha, hread]

theorem read_text_pauli {q : Nat} (b : Basis) (h : q < Text.wordSize) :
    read (pauli b q).text.toList = .ok (pauli b q) := by
  have hletter : b.letter ≠ '*' ∧ b.letter ≠ 'r' ∧ b.letter ≠ 's' ∧ b.letter.isAlpha = true ∧
      Basis.ofLetter? b.letter = some b := by
    cases b <;> decide
  obtain ⟨hstar, hr, hs, halpha, hbasis⟩ := hletter
  obtain ⟨hrec, hsweep⟩ := bracketed?_plain (Nat.toDigits 10 q) hr hs
  have hread := Text.natBelow?_toDigits h
  rw [toList_text_pauli]
  simp [read, hstar, hrec, hsweep, halpha, hbasis, hread]

theorem read_text_record {n : Nat} (hpos : 0 < n) (h : n ≤ Text.halfWord) :
    read (record (-(n : Int))).text.toList = .ok (record (-(n : Int))) := by
  have hinner : bracketed? "rec[" (record (-(n : Int))).text.toList =
      some ('-' :: Nat.toDigits 10 n) := by
    rw [bracketed?, toList_text_record hpos, Text.dropLead?_append, Option.bind_some,
      Text.dropLast?_append]
  have hstar : (record (-(n : Int))).text.toList ≠ ['*'] := by
    rw [toList_text_record hpos]
    simp
  have hread := Text.intWithin?_neg h
  simp only [read, if_neg hstar, hinner, hread]
  rw [if_neg (by omega)]

theorem read_text_sweep {bit : Nat} (h : bit < Text.wordSize) :
    read (sweep bit).text.toList = .ok (sweep bit) := by
  have hinner : bracketed? "sweep[" (sweep bit).text.toList = some (Nat.toDigits 10 bit) := by
    rw [bracketed?, toList_text_sweep, Text.dropLead?_append, Option.bind_some,
      Text.dropLast?_append]
  have hrec : bracketed? "rec[" (sweep bit).text.toList = none := by
    rw [toList_text_sweep]
    exact bracketed?_eq_none (by decide) (by decide)
  have hstar : (sweep bit).text.toList ≠ ['*'] := by
    rw [toList_text_sweep]
    simp
  have hread := Text.natBelow?_toDigits h
  simp only [read, if_neg hstar, hrec, hinner, hread]

/-- The text of a target is read as that target. -/
theorem read_text {t : Target} (ht : t.FitsWord) : read t.text.toList = .ok t := by
  cases t with
  | qubit q => exact read_text_qubit ht
  | pauli b q => exact read_text_pauli b ht
  | record offset =>
    obtain ⟨n, hn, rfl⟩ := exists_neg_of_neg ht.2
    have := ht.1
    exact read_text_record hn (by omega)
  | sweep bit => exact read_text_sweep ht
  | combiner => rfl

/-- A target that is read fits its word. -/
theorem fitsWord_of_read {text : List Char} {t : Target} (h : read text = .ok t) : t.FitsWord := by
  unfold read at h
  dsimp only at h
  split at h
  · cases h
    trivial
  split at h
  · split at h
    · next offset hoffset =>
      split at h
      · cases h
      · cases h
        exact ⟨Text.neg_le_of_intWithin? hoffset, by omega⟩
    · cases h
  split at h
  · split at h
    · next bit hbit =>
      cases h
      exact Text.lt_of_natBelow? hbit
    · cases h
  split at h
  · cases h
  split at h
  · split at h
    · cases h
    · split at h
      · next q hq =>
        cases h
        exact Text.lt_of_natBelow? hq
      · cases h
  · split at h
    · next q hq =>
      cases h
      exact Text.lt_of_natBelow? hq
    · cases h

/-- Of any two neighbours one is a combiner, so that no blank is written between them. -/
def Glued (ts : List Target) : Prop :=
  ts.IsChain fun s t => s.isCombiner = true ∨ t.isCombiner = true

instance (ts : List Target) : Decidable (Glued ts) :=
  inferInstanceAs (Decidable (ts.IsChain fun s t => s.isCombiner = true ∨ t.isCombiner = true))

theorem glued_cons {t : Target} {ts : List Target} :
    Glued (t :: ts) ↔
      (∀ next ∈ ts.head?, t.isCombiner = true ∨ next.isCombiner = true) ∧ Glued ts :=
  List.isChain_cons

end Target

/-! ## Lists of targets -/

namespace Circuit

theorem spaceCombiners_append (s t : List Char) :
    spaceCombiners (s ++ t) = spaceCombiners s ++ spaceCombiners t :=
  List.flatMap_append

theorem spaceCombiners_of_isPlain {text : List Char} (h : Text.IsPlain text) :
    spaceCombiners text = text := by
  have hstar : ∀ c ∈ text, (if c = '*' then [' ', '*', ' '] else [c]) = [c] := by
    intro c hc
    exact if_neg (Text.ne_of_isPlain (h c hc) (by decide))
  rw [spaceCombiners, List.flatMap_congr hstar]
  simp

theorem toList_targetsText_combiner (glued : Bool) (rest : List Target) :
    (Instruction.targetsText glued (.combiner :: rest)).toList =
      '*' :: (Instruction.targetsText true rest).toList := by
  have hcombiner : Target.combiner.isCombiner = true := rfl
  rw [Instruction.targetsText, if_pos hcombiner, String.toList_append]
  rfl

theorem toList_targetsText_cons {t : Target} (ht : t.isCombiner = false) (glued : Bool)
    (rest : List Target) :
    (Instruction.targetsText glued (t :: rest)).toList =
      (if glued then [] else [' ']) ++ t.text.toList ++
        (Instruction.targetsText false rest).toList := by
  rw [Instruction.targetsText, if_neg (by simp [ht]), String.toList_append, String.toList_append]
  cases glued <;> rfl

/-- Targets are written with plain characters, blanks and asterisks. -/
theorem mem_targetsText {ts : List Target} (h : ∀ t ∈ ts, t.FitsWord) (glued : Bool) {c : Char}
    (hc : c ∈ (Instruction.targetsText glued ts).toList) :
    Text.isPlain c = true ∨ c ∈ [' ', '*'] := by
  induction ts generalizing glued with
  | nil => simp [Instruction.targetsText] at hc
  | cons t rest ih =>
    rw [List.forall_mem_cons] at h
    by_cases ht : t.isCombiner = true
    · obtain rfl := Target.eq_combiner ht
      rw [toList_targetsText_combiner, List.mem_cons] at hc
      rcases hc with rfl | hc
      · exact .inr (by decide)
      · exact ih h.2 true hc
    · have ht' : t.isCombiner = false := by simpa using ht
      rw [toList_targetsText_cons ht', List.mem_append, List.mem_append] at hc
      rcases hc with (hc | hc) | hc
      · cases glued with
        | true => cases hc
        | false =>
          rw [List.mem_singleton.1 hc]
          exact .inr (by decide)
      · exact .inl ((Target.isPlain_text h.1 ht').1 c hc)
      · exact ih h.2 false hc

/-- The text of targets has no blank when they are glued to one another and to what precedes
them. -/
theorem isBlank_targetsText_iff {ts : List Target} (h : ∀ t ∈ ts, t.FitsWord) (glued : Bool) :
    (∀ c ∈ (Instruction.targetsText glued ts).toList, Text.isBlank c = false) ↔
      Target.Glued ts ∧ (glued = true ∨ ∀ t ∈ ts.head?, t.isCombiner = true) := by
  induction ts generalizing glued with
  | nil => simp [Instruction.targetsText, Target.Glued]
  | cons t rest ih =>
    rw [List.forall_mem_cons] at h
    rw [Target.glued_cons]
    by_cases ht : t.isCombiner = true
    · obtain rfl := Target.eq_combiner ht
      have hstar : Text.isBlank '*' = false := by decide
      rw [toList_targetsText_combiner, List.forall_mem_cons, ih h.2]
      simp [hstar, ht]
    · have ht' : t.isCombiner = false := by simpa using ht
      have hplain := (Target.isPlain_text h.1 ht').1
      have hword : ∀ c ∈ t.text.toList, Text.isBlank c = false :=
        fun c hc => Text.isBlank_eq_false (hplain c hc)
      rw [toList_targetsText_cons ht']
      cases glued with
      | true =>
        rw [if_pos rfl, List.nil_append, List.forall_mem_append, ih h.2, and_iff_right hword]
        simp [ht', and_comm]
      | false =>
        have hblank : Text.isBlank ' ' = true := by decide
        simp [ht', hblank]

theorem head?_targetsText (ts : List Target) :
    ∀ c ∈ (Instruction.targetsText false ts).toList.head?, c = ' ' ∨ c = '*' := by
  cases ts with
  | nil => simp [Instruction.targetsText]
  | cons t rest =>
    by_cases ht : t.isCombiner = true
    · obtain rfl := Target.eq_combiner ht
      rw [toList_targetsText_combiner]
      rintro _ ⟨⟩
      exact .inr rfl
    · rw [toList_targetsText_cons (by simpa using ht)]
      rintro _ ⟨⟩
      exact .inl rfl

/-- Spaced out, targets begin with a blank, when no combiner is pending. -/
theorem head?_spaceCombiners (ts : List Target) :
    ∀ c ∈ (spaceCombiners (Instruction.targetsText false ts).toList).head?,
      Text.isBlank c = true := by
  cases ts with
  | nil => simp [Instruction.targetsText, spaceCombiners]
  | cons t rest =>
    by_cases ht : t.isCombiner = true
    · obtain rfl := Target.eq_combiner ht
      rw [toList_targetsText_combiner]
      rintro _ ⟨⟩
      decide
    · rw [toList_targetsText_cons (by simpa using ht)]
      rintro _ ⟨⟩
      decide

/-- The words of a written list of targets are the texts of the targets. -/
theorem words_targetsText {ts : List Target} (h : ∀ t ∈ ts, t.FitsWord) (glued : Bool) :
    Text.words (spaceCombiners (Instruction.targetsText glued ts).toList) =
      ts.map fun t => t.text.toList := by
  induction ts generalizing glued with
  | nil => simp [Instruction.targetsText, spaceCombiners, Text.words, Text.pieces]
  | cons t rest ih =>
    rw [List.forall_mem_cons] at h
    have hblank : Text.isBlank ' ' = true := by decide
    by_cases ht : t.isCombiner = true
    · obtain rfl := Target.eq_combiner ht
      have hspaced : spaceCombiners ('*' :: (Instruction.targetsText true rest).toList) =
          ' ' :: (['*'] ++ ' ' :: spaceCombiners (Instruction.targetsText true rest).toList) := rfl
      have hstar : ∀ c ∈ ['*'], Text.isBlank c = false := List.forall_mem_singleton.2 (by decide)
      rw [toList_targetsText_combiner, hspaced, Text.words_cons_blank hblank,
        Text.words_append (by simp) hstar (by simpa using hblank),
        Text.words_cons_blank hblank, ih h.2]
      rfl
    · have ht' : t.isCombiner = false := by simpa using ht
      obtain ⟨hplain, hne⟩ := Target.isPlain_text h.1 ht'
      have hword : Text.words (t.text.toList ++
          spaceCombiners (Instruction.targetsText false rest).toList) =
            t.text.toList :: rest.map fun t => t.text.toList := by
        rw [Text.words_append hne (fun c hc => Text.isBlank_eq_false (hplain c hc))
          (head?_spaceCombiners rest), ih h.2]
      rw [toList_targetsText_cons ht', spaceCombiners_append, spaceCombiners_append,
        spaceCombiners_of_isPlain hplain]
      cases glued with
      | true => exact hword
      | false => exact (Text.words_cons_blank hblank _).trans hword

/-- Targets that are read fit their words. -/
theorem fitsWord_of_readTargets {number : Nat} {text : List Char} {ts : List Target}
    (h : readTargets number text = .ok ts) : ∀ t ∈ ts, t.FitsWord := by
  refine forall_mem_of_mapM (fun word t hread => ?_) h
  exact Target.fitsWord_of_read (atLine_eq_ok.1 hread)

/-- A written list of targets is read back. -/
theorem readTargets_targetsText {ts : List Target} (h : ∀ t ∈ ts, t.FitsWord) (number : Nat) :
    readTargets number (Instruction.targetsText false ts).toList = .ok ts := by
  have hread : (ts.map fun t => t.text.toList).mapM
      (fun word => atLine number (Target.read word)) = .ok (ts.map id) := by
    apply mapM_map_eq_ok
    intro t ht
    rw [Target.read_text (h t ht)]
    rfl
  rw [readTargets, words_targetsText h, hread, List.map_id]

/-! ## Heads -/

theorem map_trim_pieces_cons_blank (rest : List Char) :
    (Text.pieces (· == ',') (' ' :: rest)).map Text.trim =
      (Text.pieces (· == ',') rest).map Text.trim := by
  obtain ⟨piece, others, hpieces⟩ :=
    List.exists_cons_of_ne_nil (Text.pieces_ne_nil (· == ',') rest)
  have hblank : ∀ c ∈ [' '], (c == ',') = false := List.forall_mem_singleton.2 (by decide)
  have hcons : Text.pieces (· == ',') (' ' :: rest) = (' ' :: piece) :: others :=
    Text.pieces_append hblank hpieces
  rw [hcons, hpieces]
  rfl

/-- Arguments between commas and blanks are split into their texts. -/
theorem argTexts_intercalate {texts : List (List Char)}
    (h : ∀ text ∈ texts, Text.IsPlain text ∧ text ≠ []) :
    ((Text.pieces (· == ',') ([',', ' '].intercalate texts)).map Text.trim).filter
      (fun text => !text.isEmpty) = texts := by
  have hcomma : ∀ {text}, Text.IsPlain text → ∀ c ∈ text, (c == ',') = false := by
    intro text htext c hc
    rw [beq_eq_false_iff_ne]
    exact Text.ne_of_isPlain (htext c hc) (by decide)
  induction texts with
  | nil => decide
  | cons text texts ih =>
    rw [List.forall_mem_cons] at h
    obtain ⟨⟨hplain, hne⟩, hrest⟩ := h
    cases texts with
    | nil =>
      rw [List.intercalate_singleton, Text.pieces_of_forall (hcomma hplain)]
      simp [hplain.trim, hne]
    | cons next texts =>
      have hsplit : [',', ' '].intercalate (text :: next :: texts) =
          text ++ ',' :: ' ' :: [',', ' '].intercalate (next :: texts) := by
        rw [List.intercalate_cons_cons, List.append_assoc]
        rfl
      rw [hsplit, Text.pieces_append_separator (hcomma hplain) rfl, List.map_cons,
        map_trim_pieces_cons_blank, hplain.trim, List.filter_cons_of_pos (by simpa using hne),
        ih hrest]

theorem mem_intercalate {c : Char} {between : List Char} {texts : List (List Char)}
    (h : c ∈ between.intercalate texts) : c ∈ between ∨ ∃ text ∈ texts, c ∈ text := by
  induction texts with
  | nil => simp at h
  | cons text texts ih =>
    cases texts with
    | nil => exact .inr ⟨text, by simp, by simpa using h⟩
    | cons next texts =>
      rw [List.intercalate_cons_cons, List.mem_append, List.mem_append] at h
      rcases h with (h | h) | h
      · exact .inr ⟨text, by simp, h⟩
      · exact .inl h
      · rcases ih h with h | ⟨other, hother, h⟩
        · exact .inl h
        · exact .inr ⟨other, List.mem_cons_of_mem _ hother, h⟩

theorem toList_intercalate_compact (args : List Scalar) :
    (", ".intercalate (args.map Scalar.compact)).toList =
      [',', ' '].intercalate (args.map fun x => x.compact.toList) := by
  rw [String.toList_intercalate, List.map_map]
  rfl

/-- Between the parentheses there are plain characters, commas and blanks. -/
theorem isPlain_or_of_mem_args {args : List Scalar} {c : Char}
    (h : c ∈ (", ".intercalate (args.map Scalar.compact)).toList) :
    Text.isPlain c = true ∨ c ∈ [',', ' '] := by
  rw [toList_intercalate_compact] at h
  rcases mem_intercalate h with h | ⟨text, htext, h⟩
  · exact .inr h
  · obtain ⟨x, -, rfl⟩ := List.mem_map.1 htext
    exact .inl (Scalar.isPlain_compact x c h)

theorem compact_ne_nil (x : Scalar) : x.compact.toList ≠ [] := by
  intro hnil
  have hread := Scalar.read?_compact_eq_reread x
  rw [hnil] at hread
  cases hread

/-- Written arguments are read back, up to the signs of zero and NaN. -/
theorem readArgs_intercalate (args : List Scalar) (number : Nat) :
    readArgs number (", ".intercalate (args.map Scalar.compact)).toList =
      .ok (args.map Scalar.reread) := by
  have htexts : ∀ text ∈ args.map fun x => x.compact.toList, Text.IsPlain text ∧ text ≠ [] := by
    rw [List.forall_mem_map]
    intro x hx
    exact ⟨Scalar.isPlain_compact x, compact_ne_nil x⟩
  rw [readArgs, toList_intercalate_compact, argTexts_intercalate htexts]
  apply mapM_map_eq_ok
  intro x hx
  rw [Scalar.read?_compact_eq_reread x]

/-- A word without parentheses ends at the first blank. -/
theorem splitHead_word {name rest : List Char} (hname : ∀ c ∈ name, Text.isBlank c = false)
    (hopened : '(' ∉ name) (hclosed : ')' ∉ name)
    (hrest : ∀ c ∈ rest.head?, Text.isBlank c = true) : splitHead (name ++ rest) = (name, rest) := by
  have hword : ∀ c ∈ name, (!Text.isBlank c) = true := by
    intro c hc
    rw [hname c hc]
    rfl
  have hend : ∀ c ∈ rest.head?, (!Text.isBlank c) = false := by
    intro c hc
    rw [hrest c hc]
    rfl
  have hopen : name.contains '(' = false := by
    simpa using hopened
  rw [splitHead, Text.takeWhile_span hword hend, Text.dropWhile_span hword hend, hopen]
  cases rest with
  | nil => simp [hclosed]
  | cons c rest => rfl

/-- A name without arguments ends at the first blank. -/
theorem splitHead_name {name rest : List Char} (hname : Text.IsPlain name)
    (hrest : ∀ c ∈ rest.head?, Text.isBlank c = true) : splitHead (name ++ rest) = (name, rest) :=
  splitHead_word (fun c hc => Text.isBlank_eq_false (hname c hc)) (hname.not_mem (by decide))
    (hname.not_mem (by decide)) hrest

/-- A word that closes its arguments ends at the first blank, wherever it closes them. -/
theorem splitHead_closed {word rest : List Char} {c : Char}
    (hword : ∀ c ∈ word, Text.isBlank c = false) (hclosed : ')' ∈ word)
    (hc : Text.isBlank c = true) : splitHead (word ++ c :: rest) = (word, c :: rest) := by
  have hall : ∀ d ∈ word, (!Text.isBlank d) = true := by
    intro d hd
    rw [hword d hd]
    rfl
  have hend : ∀ d ∈ (c :: rest).head?, (!Text.isBlank d) = false := by
    rintro _ ⟨⟩
    rw [hc]
    rfl
  rw [splitHead, Text.takeWhile_span hall hend, Text.dropWhile_span hall hend]
  simp [hclosed]

/-- A head with arguments ends after the parenthesis that closes them, whether or not there is a
blank between them.  Where there is none, what follows begins with a blank or has none either. -/
theorem splitHead_args {name inner rest : List Char} (hname : Text.IsPlain name)
    (hinner : ')' ∉ inner) (hrest : (∀ c ∈ inner, Text.isBlank c = false) →
      (∀ c ∈ rest.head?, Text.isBlank c = true) ∨ ∀ c ∈ rest, Text.isBlank c = false) :
    splitHead (name ++ '(' :: inner ++ ')' :: rest) = (name ++ '(' :: inner ++ [')'], rest) := by
  have hclosed : ∀ c ∈ name ++ '(' :: inner, (c != ')') = true := by
    intro c hc
    rw [bne_iff_ne]
    rintro rfl
    rcases List.mem_append.1 hc with hc | hc
    · exact hname.not_mem (by decide) hc
    · simp_all
  have hspan : (name ++ '(' :: inner ++ ')' :: rest).takeWhile (· != ')') = name ++ '(' :: inner :=
    Text.takeWhile_span hclosed (by simp)
  have hdrop : (name ++ '(' :: inner ++ ')' :: rest).drop ((name ++ '(' :: inner).length + 1) =
      rest := by
    rw [List.drop_append, List.drop_of_length_le (by omega)]
    simp
  have hcontains : (name ++ '(' :: inner ++ ')' :: rest).contains ')' = true := by
    simp
  simp only [splitHead, hspan, hdrop, hcontains, if_true]
  by_cases hblank : ∀ c ∈ name ++ '(' :: inner, (!Text.isBlank c) = true
  · have hword : ∀ c ∈ name ++ '(' :: inner ++ [')'], (!Text.isBlank c) = true :=
      List.forall_mem_append.2 ⟨hblank, List.forall_mem_singleton.2 (by decide)⟩
    have hline : name ++ '(' :: inner ++ ')' :: rest = name ++ '(' :: inner ++ [')'] ++ rest := by
      simp
    have hnone : ∀ c ∈ inner, Text.isBlank c = false := by
      intro c hc
      simpa using hblank c (by simp [hc])
    rcases hrest hnone with hrest | hrest
    · -- the head is the first word
      have hend : ∀ c ∈ rest.head?, (!Text.isBlank c) = false := by
        intro c hc
        rw [hrest c hc]
        rfl
      rw [hline, Text.takeWhile_span hword hend, Text.dropWhile_span hword hend, ite_self]
    · -- the whole line is one word
      have hall : ∀ c ∈ name ++ '(' :: inner ++ ')' :: rest, (!Text.isBlank c) = true := by
        rw [hline]
        refine List.forall_mem_append.2 ⟨hword, fun c hc => ?_⟩
        rw [hrest c hc]
        rfl
      rw [List.dropWhile_eq_nil_iff.2 hall]
      simp
  · -- otherwise the first word opens the arguments and does not close them
    have hopens : ∀ c ∈ name ++ ['('], (!Text.isBlank c) = true := by
      intro c hc
      rcases List.mem_append.1 hc with hc | hc
      · rw [Text.isBlank_eq_false (hname c hc)]
        rfl
      · rw [List.mem_singleton.1 hc]
        decide
    have hword : (name ++ '(' :: inner ++ ')' :: rest).takeWhile (fun c => !Text.isBlank c) =
        (name ++ '(' :: inner).takeWhile fun c => !Text.isBlank c := by
      rw [List.takeWhile_append, if_neg]
      intro hlength
      apply hblank
      rw [← List.takeWhile_eq_self_iff]
      exact (List.takeWhile_prefix _).eq_of_length hlength
    have hopen : ((name ++ '(' :: inner).takeWhile fun c => !Text.isBlank c).contains '(' = true := by
      rw [← List.singleton_append, ← List.append_assoc, List.takeWhile_append_of_pos hopens]
      simp
    have hclose : ((name ++ '(' :: inner).takeWhile fun c => !Text.isBlank c).contains ')' =
        false := by
      rw [List.contains_eq_mem, decide_eq_false_iff_not]
      intro hmem
      simpa using hclosed _ ((List.takeWhile_prefix _).subset hmem)
    rw [hword, hopen, hclose]
    simp

theorem readHead_word {name : List Char} (hname : '(' ∉ name) (number : Nat) :
    readHead number name = .ok (name, []) := by
  have hopen : ∀ c ∈ name, (c != '(') = true := by
    intro c hc
    rw [bne_iff_ne]
    rintro rfl
    exact hname hc
  have hnone : name.dropWhile (· != '(') = [] := by
    simpa using hopen
  rw [readHead, hnone]

/-- A head that does not end with a parenthesis has no arguments that could be read. -/
theorem readHead_unclosed {name tail : List Char} (hname : '(' ∉ name)
    (htail : tail.getLast? ≠ some ')') (number : Nat) :
    readHead number (name ++ '(' :: tail) =
      .error (.malformedLine number .unterminatedArguments) := by
  have hopen : ∀ c ∈ name, (c != '(') = true := by
    intro c hc
    rw [bne_iff_ne]
    rintro rfl
    exact hname hc
  have hend : ∀ c ∈ ('(' :: tail).head?, (c != '(') = false := by
    simp
  have hdrop : Text.dropLast? ')' tail = none := if_neg htail
  rw [readHead, Text.dropWhile_span hopen hend]
  simp only [hdrop]

theorem readHead_args {name : List Char} (hname : Text.IsPlain name) (inner : List Char)
    (number : Nat) :
    readHead number (name ++ '(' :: inner ++ [')']) =
      (readArgs number inner).map fun args => (name, args) := by
  have hopen : ∀ c ∈ name, (c != '(') = true := by
    intro c hc
    rw [bne_iff_ne]
    exact Text.ne_of_isPlain (hname c hc) (by decide)
  have hend : ∀ c ∈ ('(' :: (inner ++ [')'])).head?, (c != '(') = false := by
    simp
  rw [List.append_assoc, List.cons_append, readHead, Text.takeWhile_span hopen hend,
    Text.dropWhile_span hopen hend]
  simp only [Text.dropLast?_append, hname.trim]

end Circuit

/-! ## Instructions -/

theorem Gate.isPlain_name (g : Gate) :
    Text.IsPlain g.name.toList ∧ g.name.toList ≠ [] ∧ ¬ "REPEAT".toList <+: g.name.toList := by
  have h : ∀ g ∈ Gate.all, Text.IsPlain g.name.toList ∧ g.name.toList ≠ [] ∧
      ¬ "REPEAT".toList <+: g.name.toList := by
    decide +kernel
  exact h g g.mem_all

/-- The name of a gate has no asterisk. -/
theorem Gate.not_mem_of_lookup {text : String} {g : Gate} (h : lookup text = .ok g) :
    '*' ∉ text.toList := by
  have hnames : ∀ entry ∈ Gate.table, '*' ∉ entry.1.toList := by decide +kernel
  have hstar : Char.toUpper '*' = '*' := by decide
  intro hmem
  obtain ⟨entry, hfind, -⟩ := Option.map_eq_some_iff.1 (ofName?_of_lookup h)
  have hname : entry.1 = upperCase text := by simpa using List.find?_some hfind
  apply hnames entry (List.mem_of_find?_eq_some hfind)
  rw [hname, upperCase, String.toList_ofList, List.mem_map]
  exact ⟨'*', hmem, hstar⟩

namespace Instruction

/-- The text of the instruction can be read: indices fit their words, records are counted
backwards, combiners stand in products only and every argument is a number. -/
structure IsWritable (i : Instruction) : Prop where
  targets : ∀ t ∈ i.targets, t.FitsWord
  combiners : ∀ t ∈ i.targets, t.isCombiner = true → i.kind.isProduct = true
  args : ∀ x ∈ i.args, x.isNaN = false

instance (i : Instruction) : Decidable i.IsWritable :=
  decidable_of_iff
    ((∀ t ∈ i.targets, t.FitsWord) ∧
      (∀ t ∈ i.targets, t.isCombiner = true → i.kind.isProduct = true) ∧
      ∀ x ∈ i.args, x.isNaN = false)
    ⟨fun h => ⟨h.1, h.2.1, h.2.2⟩, fun h => ⟨h.1, h.2, h.3⟩⟩

/-- A checked instruction whose targets fit their words. -/
structure IsSized (i : Instruction) : Prop where
  checked : i.IsChecked
  targets : ∀ t ∈ i.targets, t.FitsWord

theorem joinable_isSized : Circuit.Joinable IsSized where
  checked _ h := h.checked
  join _ _ hlast hnext h :=
    ⟨hlast.checked.join hnext.checked h, List.forall_mem_append.2 ⟨hlast.targets, hnext.targets⟩⟩

/-- Targets that open with a combiner are told apart from what stands before them: by the blank
between two arguments, or by the one argument when no other blank follows. -/
def IsSetApart (i : Instruction) : Prop :=
  i.targets.head?.any Target.isCombiner = true →
    2 ≤ i.args.length ∨ i.args.length = 1 ∧ Target.Glued i.targets

instance : DecidablePred IsSetApart := fun i =>
  inferInstanceAs (Decidable (i.targets.head?.any Target.isCombiner = true →
    2 ≤ i.args.length ∨ i.args.length = 1 ∧ Target.Glued i.targets))

/-- The instruction as it is read from its text: zero and NaN have lost their signs. -/
def reread (i : Instruction) : Instruction :=
  { i with args := i.args.map Scalar.reread }

theorem IsChecked.reread {i : Instruction} (h : i.IsChecked) : i.reread.IsChecked := by
  obtain ⟨g, hname, hfault⟩ := isChecked_iff.1 h
  exact isChecked_iff.2 ⟨g, hname, hfault⟩

/-- The targets of a product do not open with a combiner. -/
theorem IsChecked.isSetApart {i : Instruction} (h : i.IsChecked) (hwritable : i.IsWritable) :
    i.IsSetApart := by
  intro hhead
  obtain ⟨t, ht, hcombiner⟩ := (Option.any_eq_true _ _).1 hhead
  have hproduct := hwritable.combiners t (List.mem_of_head? ht) hcombiner
  obtain ⟨g, -, -, hkind, hfault⟩ := h.exists_gate
  have hgate : g.kind = .measureProduct ∨ g.kind = .noiseProduct := by
    rw [hkind] at hproduct
    revert hproduct
    cases g.kind <;> simp [GateKind.isProduct]
  rw [((targetFault?_product_iff hgate).1 hfault).1] at hhead
  cases hhead

theorem toList_text (i : Instruction) :
    i.text.toList = i.name.toList ++ ((argsText i.args).toList ++
      (targetsText false i.targets).toList) := by
  rw [text, String.toList_append, String.toList_append, List.append_assoc]

theorem toList_argsText {args : List Scalar} (h : args ≠ []) :
    (argsText args).toList =
      '(' :: (", ".intercalate (args.map Scalar.compact)).toList ++ [')'] := by
  rw [argsText, if_neg (by simpa using h), String.toList_append, String.toList_append]
  rfl

/-- The text with an argument list written out. -/
theorem toList_text_args {i : Instruction} (h : i.args ≠ []) :
    i.text.toList = i.name.toList ++
      '(' :: (", ".intercalate (i.args.map Scalar.compact)).toList ++
        ')' :: (targetsText false i.targets).toList := by
  rw [toList_text, toList_argsText h]
  simp

theorem text_reread (i : Instruction) : i.reread.text = i.text := by
  have hargs : (i.args.map Scalar.reread).map Scalar.compact = i.args.map Scalar.compact := by
    simp [Scalar.compact_reread]
  simp only [text, reread, argsText, List.isEmpty_map, hargs]

end Instruction

namespace Circuit

theorem isPlain_name {i : Instruction} (h : i.IsChecked) :
    Text.IsPlain i.name.toList ∧ i.name.toList ≠ [] ∧ ¬ "REPEAT".toList <+: i.name.toList := by
  obtain ⟨g, hname, -⟩ := Instruction.isChecked_iff.1 h
  rw [hname]
  exact g.isPlain_name

theorem readInstruction_of_parts {number : Nat} {line head rest name : List Char}
    {args : List Scalar} {targets : List Target} {i : Instruction}
    (hsplit : splitHead line = (head, rest)) (hhead : readHead number head = .ok (name, args))
    (htargets : readTargets number rest = .ok targets)
    (hmake : Instruction.make (String.ofList name) targets args = .ok i) :
    readInstruction number line = .ok i := by
  rw [readInstruction, hsplit]
  exact bind_eq_ok.2 ⟨_, hhead, bind_eq_ok.2 ⟨_, htargets, atLine_eq_ok.2 hmake⟩⟩

/-- Between the parentheses there is no mark that closes them. -/
theorem not_mem_args (args : List Scalar) :
    ')' ∉ (", ".intercalate (args.map Scalar.compact)).toList := by
  intro hmem
  rcases isPlain_or_of_mem_args hmem with h | h
  · exact absurd h (by decide)
  · exact absurd h (by decide)

/-- Two arguments have a blank between them. -/
theorem blank_mem_args {args : List Scalar} (h : 2 ≤ args.length) :
    ' ' ∈ (", ".intercalate (args.map Scalar.compact)).toList := by
  obtain ⟨x, y, rest, rfl⟩ : ∃ x y rest, args = x :: y :: rest := by
    match args, h with
    | x :: y :: rest, _ => exact ⟨x, y, rest, rfl⟩
  rw [toList_intercalate_compact, List.map_cons, List.map_cons, List.intercalate_cons_cons]
  simp

/-- What follows the arguments begins with a blank, when it begins with no combiner. -/
theorem isBlank_head?_targetsText {i : Instruction}
    (h : i.targets.head?.any Target.isCombiner = false) :
    ∀ c ∈ (Instruction.targetsText false i.targets).toList.head?, Text.isBlank c = true := by
  cases htargets : i.targets with
  | nil => simp [Instruction.targetsText]
  | cons t rest =>
    rw [htargets] at h
    rw [toList_targetsText_cons h]
    rintro _ ⟨⟩
    decide

/-- The line of an instruction is read as that instruction. -/
theorem readInstruction_text {i : Instruction} (h : i.IsSized) (hapart : i.IsSetApart)
    (number : Nat) : readInstruction number i.text.toList = .ok i.reread := by
  have htargets := readTargets_targetsText h.targets number
  have hmake : Instruction.make (String.ofList i.name.toList) i.targets
      (i.args.map Scalar.reread) = .ok i.reread := by
    rw [String.ofList_toList]
    exact h.checked.reread
  have hname := (isPlain_name h.checked).1
  by_cases hargs : i.args = []
  · have hhead : i.targets.head?.any Target.isCombiner = false := by
      by_contra hcombiner
      have hargs' := hapart (by simpa using hcombiner)
      simp [hargs] at hargs'
    rw [hargs] at hmake
    rw [Instruction.toList_text, hargs]
    exact readInstruction_of_parts (splitHead_name hname (isBlank_head?_targetsText hhead))
      (readHead_word (hname.not_mem (by decide)) number) htargets hmake
  · have hrest : (∀ c ∈ (", ".intercalate (i.args.map Scalar.compact)).toList,
          Text.isBlank c = false) →
        (∀ c ∈ (Instruction.targetsText false i.targets).toList.head?, Text.isBlank c = true) ∨
          ∀ c ∈ (Instruction.targetsText false i.targets).toList, Text.isBlank c = false := by
      intro hnone
      by_cases hcombiner : i.targets.head?.any Target.isCombiner = true
      · rcases hapart hcombiner with htwo | ⟨-, hglued⟩
        · exact absurd (hnone ' ' (blank_mem_args htwo)) (by decide)
        · refine .inr ((isBlank_targetsText_iff h.targets false).2 ⟨hglued, .inr ?_⟩)
          intro t ht
          rwa [Option.mem_def.1 ht] at hcombiner
      · exact .inl (isBlank_head?_targetsText (by simpa using hcombiner))
    have hhead : readHead number (i.name.toList ++
        '(' :: (", ".intercalate (i.args.map Scalar.compact)).toList ++ [')']) =
          .ok (i.name.toList, i.args.map Scalar.reread) := by
      rw [readHead_args hname, readArgs_intercalate]
      rfl
    rw [Instruction.toList_text_args hargs]
    exact readInstruction_of_parts (splitHead_args hname (not_mem_args _) hrest) hhead htargets
      hmake

/-- Targets that open with a combiner open with a word that holds it. -/
theorem exists_word_targetsText {ts : List Target} (h : ∀ t ∈ ts, t.FitsWord)
    (hcombiner : ts.head?.any Target.isCombiner = true) :
    ∃ word rest, (Instruction.targetsText false ts).toList = word ++ rest ∧
      (∀ c ∈ word, Text.isBlank c = false) ∧ (∀ c ∈ rest.head?, Text.isBlank c = true) ∧
      '*' ∈ word ∧ '(' ∉ word ∧ ')' ∉ word := by
  obtain ⟨word, rest, htext, hword, hrest⟩ :=
    Text.exists_word_append (Instruction.targetsText false ts).toList
  have hmark : ∀ d, Text.isPlain d = false → d ∉ [' ', '*'] → d ∉ word := by
    intro d hplain hother hd
    rcases mem_targetsText h false (htext ▸ List.mem_append_left rest hd) with hd | hd
    · rw [hplain] at hd
      cases hd
    · exact hother hd
  refine ⟨word, rest, htext, hword, hrest, ?_, hmark '(' (by decide) (by decide),
    hmark ')' (by decide) (by decide)⟩
  obtain ⟨t, ht, htc⟩ := (Option.any_eq_true _ _).1 hcombiner
  obtain ⟨others, rfl⟩ := List.head?_eq_some_iff.1 ht
  obtain rfl := Target.eq_combiner htc
  rw [toList_targetsText_combiner] at htext
  cases word with
  | nil =>
    rw [List.nil_append] at htext
    exact absurd (hrest '*' (by simp [← htext])) (by decide)
  | cons c word =>
    rw [List.cons_append, List.cons.injEq] at htext
    exact htext.1 ▸ List.mem_cons_self

/-- A line that is read has its combiners set apart from the name and the arguments. -/
theorem isSetApart_of_readInstruction {i j : Instruction} (h : i.IsSized) {number : Nat}
    (hread : readInstruction number i.text.toList = .ok j) : i.IsSetApart := by
  intro hcombiner
  obtain ⟨name, targets, args, hmake, hhead, -⟩ := make_of_readInstruction hread
  obtain ⟨word, rest, htext, hword, hrest, hstar, hopened, hclosed⟩ :=
    exists_word_targetsText h.targets hcombiner
  have hplain := (isPlain_name h.checked).1
  have hname : ∀ c ∈ i.name.toList, Text.isBlank c = false :=
    fun c hc => Text.isBlank_eq_false (hplain c hc)
  have hnopen : '(' ∉ i.name.toList := hplain.not_mem (by decide)
  have hnclose : ')' ∉ i.name.toList := hplain.not_mem (by decide)
  match hargs : i.args with
  | [] =>
    -- the name would go on with the combiner
    have hblank : ∀ c ∈ i.name.toList ++ word, Text.isBlank c = false :=
      List.forall_mem_append.2 ⟨hname, hword⟩
    have hopen : '(' ∉ i.name.toList ++ word := by simp [hnopen, hopened]
    have hclose : ')' ∉ i.name.toList ++ word := by simp [hnclose, hclosed]
    have hline : i.text.toList = i.name.toList ++ word ++ rest := by
      rw [Instruction.toList_text, hargs, htext, List.append_assoc]
      rfl
    rw [hline, splitHead_word hblank hopen hclose hrest, readHead_word hopen] at hhead
    obtain ⟨g, hlookup, -⟩ := Instruction.isChecked_of_make hmake
    have hlonger : name.toList = i.name.toList ++ word :=
      (congrArg Prod.fst (Except.ok.inj hhead)).symm
    refine absurd ?_ (Gate.not_mem_of_lookup hlookup)
    rw [hlonger]
    exact List.mem_append_right _ hstar
  | [x] =>
    -- the argument list would go on with the combiner
    refine .inr ⟨rfl, ?_⟩
    by_contra hglued
    obtain ⟨c, rest, rfl⟩ : ∃ c others, rest = c :: others := by
      apply List.exists_cons_of_ne_nil
      rintro rfl
      rw [List.append_nil] at htext
      rw [← htext] at hword
      exact hglued ((isBlank_targetsText_iff h.targets false).1 hword).1
    have hinner : (", ".intercalate (i.args.map Scalar.compact)).toList = x.compact.toList := by
      rw [toList_intercalate_compact, hargs, List.map_singleton, List.intercalate_singleton]
    have hline : i.text.toList =
        (i.name.toList ++ '(' :: (x.compact.toList ++ ')' :: word)) ++ c :: rest := by
      rw [Instruction.toList_text_args (by simp [hargs]), hinner, htext]
      simp
    have hblank : ∀ d ∈ i.name.toList ++ '(' :: (x.compact.toList ++ ')' :: word),
        Text.isBlank d = false := by
      refine List.forall_mem_append.2 ⟨hname, List.forall_mem_cons.2 ⟨by decide, ?_⟩⟩
      refine List.forall_mem_append.2 ⟨?_, List.forall_mem_cons.2 ⟨by decide, hword⟩⟩
      exact fun d hd => Text.isBlank_eq_false (Scalar.isPlain_compact x d hd)
    have hlast : (x.compact.toList ++ ')' :: word).getLast? ≠ some ')' := by
      intro hlast
      rw [List.getLast?_append_cons, List.getLast?_cons_of_ne_nil (List.ne_nil_of_mem hstar)]
        at hlast
      exact hclosed (List.mem_of_getLast? hlast)
    rw [hline, splitHead_closed hblank (by simp) (hrest c rfl),
      readHead_unclosed hnopen hlast] at hhead
    cases hhead
  | _ :: _ :: _ => exact .inl (by simp)

/-- A line is read exactly when its combiners are set apart. -/
theorem readInstruction_text_iff {i : Instruction} (h : i.IsSized) (number : Nat) :
    (∃ j, readInstruction number i.text.toList = .ok j) ↔ i.IsSetApart :=
  ⟨fun ⟨_, hread⟩ => isSetApart_of_readInstruction h hread,
    fun hapart => ⟨_, readInstruction_text h hapart number⟩⟩

/-- The targets of an instruction that is read fit their words. -/
theorem isSized_of_readInstruction {number : Nat} {line : List Char} {i : Instruction}
    (h : readInstruction number line = .ok i) : i.IsSized := by
  obtain ⟨name, targets, args, hmake, -, htargets⟩ := make_of_readInstruction h
  refine ⟨.of_make hmake, ?_⟩
  obtain ⟨g, -, -, rfl⟩ := Instruction.isChecked_of_make hmake
  exact fitsWord_of_readTargets htargets

theorem Read.isSized {c : Circuit} (h : Read c) : Everywhere Instruction.IsSized c := by
  induction h with
  | nil => exact everywhere_nil _
  | push hc hi ih =>
    exact everywhere_push Instruction.joinable_isSized ih (isSized_of_readInstruction hi)
  | pushRepeat hc hbody hcount ih ihbody =>
    exact everywhere_pushOperation Instruction.joinable_isSized ih (within_block.2 ihbody)

/-! ## Lines -/

/-- Whether a character can occur in a line of circuit text. -/
def inLine (c : Char) : Bool :=
  Text.isPlain c || [' ', '*', ',', '(', ')', '\x7b', '\x7d'].contains c

/-- The text has characters of a line and does not end with a blank. -/
structure LinePart (text : List Char) : Prop where
  chars : ∀ c ∈ text, inLine c = true
  last : ∀ c ∈ text.getLast?, Text.isBlank c = false

instance : DecidablePred LinePart := fun text =>
  decidable_of_iff (text.all inLine = true ∧ text.getLast?.any Text.isBlank = false) <| by
    rw [List.all_eq_true, Option.any_eq_false]
    exact ⟨fun h => ⟨h.1, by simpa using h.2⟩, fun h => ⟨h.chars, by simpa using h.last⟩⟩

theorem inLine_of_isPlain {c : Char} (h : Text.isPlain c = true) : inLine c = true := by
  rw [inLine, h, Bool.true_or]

theorem LinePart.of_isPlain {text : List Char} (h : Text.IsPlain text) : LinePart text where
  chars c hc := inLine_of_isPlain (h c hc)
  last c hc := Text.isBlank_eq_false (h c (List.mem_of_getLast? hc))

theorem LinePart.append {s t : List Char} (hs : LinePart s) (ht : LinePart t) :
    LinePart (s ++ t) where
  chars := List.forall_mem_append.2 ⟨hs.chars, ht.chars⟩
  last c hc := by
    rw [List.getLast?_append, Option.mem_def, Option.or_eq_some_iff] at hc
    rcases hc with hc | ⟨-, hc⟩
    · exact ht.last c hc
    · exact hs.last c hc

theorem LinePart.cons {c : Char} {text : List Char} (hc : inLine c = true) (h : LinePart text)
    (hne : text ≠ []) : LinePart (c :: text) where
  chars := List.forall_mem_cons.2 ⟨hc, h.chars⟩
  last d hd := by
    obtain ⟨a, rest, rfl⟩ := List.exists_cons_of_ne_nil hne
    rw [List.getLast?_cons_cons] at hd
    exact h.last d hd

theorem linePart_argsText (args : List Scalar) :
    LinePart (Instruction.argsText args).toList := by
  by_cases hargs : args = []
  · rw [hargs]
    exact .of_isPlain (List.forall_mem_nil _)
  · rw [Instruction.toList_argsText hargs]
    constructor
    · intro c hc
      rw [List.mem_append, List.mem_cons, List.mem_singleton] at hc
      rcases hc with (rfl | hc) | rfl
      · decide
      · rcases isPlain_or_of_mem_args hc with h | h
        · exact inLine_of_isPlain h
        · rw [List.mem_cons, List.mem_singleton] at h
          rcases h with rfl | rfl <;> decide
      · decide
    · intro c hc
      rw [List.getLast?_concat] at hc
      obtain rfl := Option.some.inj hc
      decide

theorem linePart_targetsText {ts : List Target} (h : ∀ t ∈ ts, t.FitsWord) (glued : Bool) :
    LinePart (Instruction.targetsText glued ts).toList := by
  induction ts generalizing glued with
  | nil => exact .of_isPlain (List.forall_mem_nil _)
  | cons t rest ih =>
    rw [List.forall_mem_cons] at h
    by_cases ht : t.isCombiner = true
    · obtain rfl := Target.eq_combiner ht
      have hstar : LinePart ['*'] := by decide
      rw [toList_targetsText_combiner]
      exact hstar.append (ih h.2 true)
    · have ht' : t.isCombiner = false := by simpa using ht
      obtain ⟨hplain, hne⟩ := Target.isPlain_text h.1 ht'
      have hword := LinePart.of_isPlain hplain
      rw [toList_targetsText_cons ht']
      apply LinePart.append _ (ih h.2 false)
      cases glued with
      | true => exact hword
      | false => exact hword.cons (by decide) hne

theorem linePart_text {i : Instruction} (h : i.IsSized) : LinePart i.text.toList := by
  rw [Instruction.toList_text]
  apply (LinePart.of_isPlain (isPlain_name h.checked).1).append
  exact (linePart_argsText i.args).append (linePart_targetsText h.targets false)

/-- An instruction line opens with the first character of its name. -/
theorem exists_cons_text {i : Instruction} (h : i.IsChecked) :
    ∃ c rest, i.text.toList = c :: rest ∧ Text.isPlain c = true := by
  obtain ⟨hplain, hne, -⟩ := isPlain_name h
  obtain ⟨c, rest, hname⟩ := List.exists_cons_of_ne_nil hne
  refine ⟨c, _, by rw [Instruction.toList_text, hname, List.cons_append], ?_⟩
  exact hplain c (by rw [hname]; exact List.mem_cons_self)

/-- What follows a name is no part of it. -/
theorem head?_after_name (i : Instruction) :
    ∀ c ∈ ((Instruction.argsText i.args).toList ++
      (Instruction.targetsText false i.targets).toList).head?, Text.isPlain c = false := by
  by_cases hargs : i.args = []
  · rw [hargs]
    intro c hc
    rcases head?_targetsText i.targets c hc with rfl | rfl <;> decide
  · rw [Instruction.toList_argsText hargs]
    rintro _ ⟨⟩
    decide

/-- The line of an instruction opens no block. -/
theorem dropLead?_text {i : Instruction} (h : i.IsChecked) :
    Text.dropLead? "REPEAT".toList i.text.toList = none := by
  rw [Option.eq_none_iff_forall_ne_some]
  intro rest hrest
  have happend := Text.eq_append_of_dropLead? hrest
  have hafter := head?_after_name i
  rw [Instruction.toList_text, List.append_eq_append_iff] at happend
  rcases happend with ⟨between, hword, hargs⟩ | ⟨between, hname, -⟩
  · -- the name would be the word, or go on with a character of it
    cases between with
    | nil =>
      rw [List.append_nil] at hword
      exact (isPlain_name h).2.2 (hword ▸ List.prefix_rfl)
    | cons c between =>
      rw [hargs] at hafter
      have hplain : Text.IsPlain "REPEAT".toList := by decide
      have hc := hplain c (by rw [hword]; simp)
      rw [hafter c rfl] at hc
      cases hc
  · exact (isPlain_name h).2.2 (by rw [hname]; exact List.prefix_append _ _)

/-- Indentation is dropped, and there is no comment. -/
theorem trim_margin {line : List Char} (h : LinePart line)
    (hhead : ∀ c ∈ line.head?, Text.isBlank c = false) (indent : Nat) :
    Text.trim ((List.replicate indent ' ' ++ line).takeWhile (· != '#')) = line := by
  have hblank : ∀ c ∈ List.replicate indent ' ', c = ' ' := fun c hc => List.eq_of_mem_replicate hc
  have hcomment : ∀ c ∈ List.replicate indent ' ' ++ line, (c != '#') = true := by
    intro c hc
    rw [bne_iff_ne]
    rintro rfl
    rcases List.mem_append.1 hc with hc | hc
    · exact absurd (hblank _ hc) (by decide)
    · exact absurd (h.chars _ hc) (by decide)
  rw [List.takeWhile_eq_self_iff.2 hcomment]
  have htrim := @Text.trim_padded (List.replicate indent ' ') line []
    (fun c hc => by rw [hblank c hc]; decide) (List.forall_mem_nil _) hhead h.last
  rwa [List.append_nil] at htrim

/-- What is read from the line of an instruction is appended to the innermost block. -/
theorem readLine_text {i : Instruction} (h : i.IsSized) (state : ReaderState)
    (number indent : Nat) :
    readLine state number (List.replicate indent ' ' ++ i.text.toList) =
      (readInstruction number i.text.toList).map fun j =>
        ⟨⟨state.current.count, pushReversed state.current.operations j⟩, state.outer⟩ := by
  obtain ⟨c, rest, hline, hc⟩ := exists_cons_text h.checked
  have hhead : ∀ d ∈ i.text.toList.head?, Text.isBlank d = false := by
    rw [hline]
    rintro _ ⟨⟩
    exact Text.isBlank_eq_false hc
  have hempty : i.text.toList.isEmpty = false := by rw [hline]; rfl
  have hbrace : i.text.toList ≠ ['\x7d'] := by
    rw [hline]
    rintro ⟨⟩
    exact absurd hc (by decide)
  simp only [readLine, trim_margin (linePart_text h) hhead, hempty, if_neg hbrace,
    dropLead?_text h.checked]
  rfl

/-- The line of an instruction appends it to the innermost block. -/
theorem readLine_instruction {i : Instruction} (h : i.IsSized) (hapart : i.IsSetApart)
    (state : ReaderState) (number indent : Nat) :
    readLine state number (List.replicate indent ' ' ++ i.text.toList) =
      .ok ⟨⟨state.current.count, pushReversed state.current.operations i.reread⟩,
        state.outer⟩ := by
  rw [readLine_text h, readInstruction_text h hapart]
  rfl

/-- The header of a block. -/
def header (count : Nat) : List Char :=
  ['R', 'E', 'P', 'E', 'A', 'T'] ++ (' ' :: Nat.toDigits 10 count ++ [' ', '\x7b'])

theorem linePart_header (count : Nat) : LinePart (header count) := by
  have hdigits : LinePart (' ' :: Nat.toDigits 10 count) :=
    (LinePart.of_isPlain (Text.isPlain_toDigits count)).cons (by decide) (by simp)
  have hword : LinePart ['R', 'E', 'P', 'E', 'A', 'T'] := by decide
  have hopen : LinePart [' ', '\x7b'] := by decide
  exact hword.append (hdigits.append hopen)

theorem linePart_brace : LinePart ['\x7d'] := by decide

theorem repeatCount?_header {count : Nat} (h : count < Text.longSize) :
    repeatCount? (' ' :: Nat.toDigits 10 count ++ [' ', '\x7b']) = some count := by
  have hplain := Text.isPlain_toDigits count
  have hblank : ∀ c ∈ [' '], Text.isBlank c = true := List.forall_mem_singleton.2 (by decide)
  have houter : Text.trim (' ' :: Nat.toDigits 10 count ++ [' ', '\x7b']) =
      Nat.toDigits 10 count ++ [' '] ++ ['\x7b'] := by
    have htrim := @Text.trim_padded [' '] (Nat.toDigits 10 count ++ [' ', '\x7b']) [] hblank
      (List.forall_mem_nil _) ?_ ?_
    · rw [List.append_nil] at htrim
      rw [List.append_assoc]
      exact htrim
    · intro c hc
      rw [List.head?_append, Option.mem_def, Option.or_eq_some_iff] at hc
      rcases hc with hc | ⟨hnil, -⟩
      · exact Text.isBlank_eq_false (hplain c (List.mem_of_head? hc))
      · simp at hnil
    · intro c hc
      rw [List.getLast?_append] at hc
      obtain rfl := Option.some.inj hc
      decide
  have hinner : Text.trim (Nat.toDigits 10 count ++ [' ']) = Nat.toDigits 10 count :=
    hplain.trim_padded (List.forall_mem_nil _) hblank
  rw [repeatCount?, houter, Text.dropLast?_append, Option.bind_some, hinner,
    Text.natBelow?_toDigits h]

/-- The header of a block opens it. -/
theorem readLine_header {count : Nat} (h : count < Text.longSize) (state : ReaderState)
    (number indent : Nat) :
    readLine state number (List.replicate indent ' ' ++ header count) =
      .ok ⟨⟨count, []⟩, state.current :: state.outer⟩ := by
  have hhead : ∀ c ∈ (header count).head?, Text.isBlank c = false := by
    rintro _ ⟨⟩
    decide
  have hempty : (header count).isEmpty = false := rfl
  have hbrace : header count ≠ ['\x7d'] := by
    simp [header]
  have hword : "REPEAT".toList = ['R', 'E', 'P', 'E', 'A', 'T'] := by decide
  have hrest : Text.dropLead? "REPEAT".toList (header count) =
      some (' ' :: Nat.toDigits 10 count ++ [' ', '\x7b']) := by
    rw [hword, header, Text.dropLead?_append]
  simp only [readLine, trim_margin (linePart_header count) hhead, hempty, if_neg hbrace, hrest,
    repeatCount?_header h]
  rfl

/-- A closing brace ends the innermost block. -/
theorem readLine_brace (inner parent : OpenBlock) (outer : List OpenBlock)
    (number indent : Nat) :
    readLine ⟨inner, parent :: outer⟩ number (List.replicate indent ' ' ++ ['\x7d']) =
      .ok ⟨⟨parent.count, addReversed parent.operations (.block inner.count
        inner.operations.reverse)⟩, outer⟩ := by
  have hhead : ∀ c ∈ ['\x7d'].head?, Text.isBlank c = false := by
    rintro _ ⟨⟩
    decide
  simp only [readLine, trim_margin linePart_brace hhead]
  rfl

end Circuit

end StabCircuit
