import StabCircuit.Proofs.Circuit.Settled
import StabCircuit.Proofs.Scalar.Nearest
import StabCircuit.Proofs.Text.Splitting
import StabCircuit.Scalar.Printer
import StabCircuit.Scalar.Reader

/-!
# Numbers read back from their text

The text of every scalar that is a number is read as that scalar, a zero without
its sign.
-/

namespace StabCircuit

namespace Scalar

/-! ## Decimals near a scalar -/

theorem contains_mul {n : Neighbourhood} {num den k : Nat} (hk : 0 < k) :
    n.contains (num * k) (den * k) = n.contains num den := by
  simp only [Neighbourhood.contains, ← Nat.mul_assoc, Nat.mul_le_mul_right_iff hk,
    Nat.mul_lt_mul_right hk]

theorem low_pos {x : Scalar} (h : x.isZero = false) : 0 < x.neighbourhood.low := by
  have hstep : 2 ^ x.shift ≤ x.units := Nat.le_mul_of_pos_left _ (significand_pos h)
  have hpos := units_pos h
  simp only [neighbourhood, Nat.pow_eq]
  split <;> omega

theorem high_le {x : Scalar} (hfinite : x.isFinite = true) :
    x.neighbourhood.high ≤ 2 ^ 1024 * (2 * unitsPerOne) := by
  have hmagnitude : x.magnitude < infinityMagnitude := by simpa [isFinite] using hfinite
  have hshift : x.shift ≤ 2045 := by
    have hexponent : x.magnitude / fractionCount < 2047 :=
      (Nat.div_lt_iff_lt_mul (by decide)).2 hmagnitude
    rw [shift]
    omega
  have hsignificand := x.significand_lt
  calc x.neighbourhood.high = (2 * x.significand + 1) * 2 ^ x.shift := by
        simp only [neighbourhood, units, Nat.pow_eq]
        ring
    _ ≤ (4 * fractionCount) * 2 ^ 2045 :=
        Nat.mul_le_mul (by omega) (Nat.pow_le_pow_right (by decide) hshift)
    _ = 2 ^ 1024 * (2 * unitsPerOne) := by decide +kernel

/-- A decimal in the neighbourhood of a scalar is of moderate size. -/
theorem lt_of_contains {x : Scalar} (hfinite : x.isFinite = true) {c e : Nat}
    (h : x.neighbourhood.contains (c * (10 ^ e * (2 * unitsPerOne))) (10 ^ decimalOffset) = true) :
    c * 10 ^ e < 10 ^ 800 := by
  have hpos : 0 < 2 * unitsPerOne := by decide +kernel
  have hlimit : 2 ^ 1024 * (2 * unitsPerOne) * 10 ^ decimalOffset < 10 ^ 800 * (2 * unitsPerOne) := by
    decide +kernel
  have hupper := (contains_iff.1 h).2.1
  have hhigh := Nat.mul_le_mul_right (10 ^ decimalOffset) (high_le hfinite)
  apply Nat.lt_of_mul_lt_mul_right (a := 2 * unitsPerOne)
  calc c * 10 ^ e * (2 * unitsPerOne) = c * (10 ^ e * (2 * unitsPerOne)) := Nat.mul_assoc _ _ _
    _ ≤ x.neighbourhood.high * 10 ^ decimalOffset := hupper
    _ ≤ 2 ^ 1024 * (2 * unitsPerOne) * 10 ^ decimalOffset := hhigh
    _ < 10 ^ 800 * (2 * unitsPerOne) := hlimit

/-- A decimal in the neighbourhood of a scalar is read as the scalar. -/
theorem ofDecimal_of_contains {x : Scalar} (hfinite : x.isFinite = true) (hzero : x.isZero = false)
    {c e : Nat}
    (h : x.neighbourhood.contains (c * (10 ^ e * (2 * unitsPerOne))) (10 ^ decimalOffset) = true) :
    ofDecimal x.negative c ((e : Int) - decimalOffset) = x := by
  have hten : ∀ k, 0 < 10 ^ k := fun k => Nat.pow_pos (by decide)
  have hc : c ≠ 0 := by
    rintro rfl
    have hlow := (contains_iff.1 h).1
    have := Nat.mul_pos (low_pos hzero) (hten decimalOffset)
    omega
  have hsize := lt_of_contains hfinite h
  have he : e < 800 := by
    apply (Nat.pow_lt_pow_iff_right (a := 10) (by decide)).1
    exact Nat.lt_of_le_of_lt (Nat.le_mul_of_pos_left _ (Nat.pos_of_ne_zero hc)) hsize
  have hdigits : digitCount c ≤ 800 - e := by
    rw [digitCount_le_iff (by omega)]
    apply Nat.lt_of_mul_lt_mul_right (a := 10 ^ e)
    rwa [← Nat.pow_add, Nat.sub_add_cancel (Nat.le_of_lt he)]
  have hoffset : decimalOffset = 400 := rfl
  rw [ofDecimal, if_neg (by omega), if_neg (by omega)]
  split
  · next hnonneg =>
    obtain ⟨k, rfl⟩ : ∃ k, e = k + decimalOffset := ⟨e - decimalOffset, by omega⟩
    have hexponent : ((k + decimalOffset : Nat) - (decimalOffset : Int)).toNat = k := by omega
    have hnum : 2 * (c * 10 ^ k * unitsPerOne) * 10 ^ decimalOffset =
        c * (10 ^ (k + decimalOffset) * (2 * unitsPerOne)) := by
      rw [Nat.pow_add]
      ring
    rw [hexponent, ofFraction, Nat.pow_eq]
    apply ofUnits_of_contains hfinite (by decide)
    rw [← contains_mul (hten decimalOffset), hnum, Nat.one_mul]
    exact h
  · next hneg =>
    obtain ⟨k, hk⟩ : ∃ k, decimalOffset = e + k := ⟨decimalOffset - e, by omega⟩
    have hexponent : (-((e : Int) - decimalOffset)).toNat = k := by omega
    have hnum : 2 * (c * unitsPerOne) * 10 ^ e = c * (10 ^ e * (2 * unitsPerOne)) := by ring
    have hden : 10 ^ k * 10 ^ e = 10 ^ decimalOffset := by rw [hk, Nat.pow_add, Nat.mul_comm]
    rw [hexponent, ofFraction, Nat.pow_eq]
    apply ofUnits_of_contains hfinite (hten k)
    rw [← contains_mul (hten e), hnum, hden]
    exact h

/-! ## Digits -/

theorem unsigned?_whole {whole : List Char} (hne : whole ≠ [])
    (hwhole : ∀ c ∈ whole, c.isDigit = true) (negative : Bool) :
    unsigned? negative whole = some (ofDecimal negative (Text.ofDigits whole) 0) := by
  have htake : whole.takeWhile Char.isDigit = whole := List.takeWhile_eq_self_iff.2 hwhole
  have hdrop : whole.dropWhile Char.isDigit = [] := List.dropWhile_eq_nil_iff.2 hwhole
  simp [unsigned?, htake, hdrop, hne, exponent?]

theorem unsigned?_point {whole fraction : List Char} (hne : whole ≠ [])
    (hwhole : ∀ c ∈ whole, c.isDigit = true) (hfraction : ∀ c ∈ fraction, c.isDigit = true)
    (negative : Bool) :
    unsigned? negative (whole ++ '.' :: fraction) =
      some (ofDecimal negative (Text.ofDigits (whole ++ fraction)) (-fraction.length)) := by
  have hpoint : ∀ c ∈ ('.' :: fraction).head?, c.isDigit = false := by
    rintro _ ⟨⟩
    rfl
  have htake := Text.takeWhile_span hwhole hpoint
  have hdrop := Text.dropWhile_span hwhole hpoint
  have htake' : fraction.takeWhile Char.isDigit = fraction :=
    List.takeWhile_eq_self_iff.2 hfraction
  have hdrop' : fraction.dropWhile Char.isDigit = [] := List.dropWhile_eq_nil_iff.2 hfraction
  simp [unsigned?, htake, hdrop, htake', hdrop', hne, exponent?]

theorem toLower_of_isDigit {c : Char} (h : c.isDigit = true) : c.toLower = c := by
  have hupper : ¬ (c.val ≥ 'A'.val ∧ c.val ≤ 'Z'.val) := by
    simp only [Char.isDigit, Bool.and_eq_true, decide_eq_true_eq, ge_iff_le,
      UInt32.le_iff_toNat_le] at h ⊢
    simp at h ⊢
    omega
  unfold Char.toLower
  split
  · next hrange => exact absurd hrange hupper
  · rfl

/-- A text that begins with a digit is no word for an infinity or a NaN. -/
theorem afterSign?_of_isDigit {c : Char} (h : c.isDigit = true) (rest : List Char)
    (negative : Bool) : afterSign? negative (c :: rest) = unsigned? negative (c :: rest) := by
  have hword : ∀ word : String, word.toList.head?.any Char.isDigit = false →
      String.ofList ((c :: rest).map Char.toLower) ≠ word := by
    intro word hhead heq
    have hlist := congrArg String.toList heq
    rw [String.toList_ofList, List.map_cons, toLower_of_isDigit h] at hlist
    rw [← hlist, List.head?_cons, Option.any_some, h] at hhead
    cases hhead
  have hinf := hword "inf" (by decide)
  have hinfinity := hword "infinity" (by decide)
  have hnan := hword "nan" (by decide)
  rw [afterSign?, if_neg (not_or.2 ⟨hinf, hinfinity⟩), if_neg hnan]

theorem ofDigits_append_zeros (digits : List Char) (n : Nat) :
    Text.ofDigits (digits ++ List.replicate n '0') = Text.ofDigits digits * 10 ^ n := by
  rw [Text.ofDigits_eq_ofDigitChars, Nat.ofDigitChars_append, Nat.ofDigitChars_replicate_zero,
    ← Text.ofDigits_eq_ofDigitChars, Nat.mul_comm]

theorem ofDigits_zeros_append (digits : List Char) (n : Nat) :
    Text.ofDigits (List.replicate n '0' ++ digits) = Text.ofDigits digits := by
  rw [Text.ofDigits_eq_ofDigitChars, Nat.ofDigitChars_append, Nat.ofDigitChars_replicate_zero,
    Nat.mul_zero, ← Text.ofDigits_eq_ofDigitChars]

theorem isDigit_of_mem_zeros {n : Nat} {c : Char} (h : c ∈ List.replicate n '0') :
    c.isDigit = true := by
  rw [List.eq_of_mem_replicate h]
  rfl

/-- The text of a decimal begins with a digit and is read as a decimal of the same value. -/
theorem unsigned?_positional (d : Decimal) (negative : Bool) :
    (∃ c rest, d.positional.toList = c :: rest ∧ c.isDigit = true) ∧
      ∃ c e : Nat, c * 10 ^ e = d.coefficient * 10 ^ d.exponent ∧
        unsigned? negative d.positional.toList =
          some (ofDecimal negative c ((e : Int) - decimalOffset)) := by
  have hdigits : ∀ c ∈ Nat.toDigits 10 d.coefficient, c.isDigit = true :=
    fun c hc => Text.isDigit_of_mem_toDigits hc
  have hvalue := Text.ofDigits_toDigits d.coefficient
  have hne : Nat.toDigits 10 d.coefficient ≠ [] := by simp
  simp only [Decimal.positional]
  generalize Nat.toDigits 10 d.coefficient = digits at hdigits hvalue hne ⊢
  have hbegins : ∀ rest, ∃ c tail, digits ++ rest = c :: tail ∧ c.isDigit = true := by
    intro rest
    obtain ⟨c, tail, rfl⟩ := List.exists_cons_of_ne_nil hne
    exact ⟨c, tail ++ rest, rfl, hdigits c (by simp)⟩
  split
  · next hlarge =>
    rw [String.toList_ofList]
    refine ⟨hbegins _, d.coefficient * 10 ^ (d.exponent - decimalOffset), decimalOffset, ?_, ?_⟩
    · rw [Nat.mul_assoc, ← Nat.pow_add, Nat.sub_add_cancel hlarge]
    · rw [unsigned?_whole (by simp [hne]), ofDigits_append_zeros, hvalue, Int.sub_self]
      exact List.forall_mem_append.2 ⟨hdigits, fun c hc => isDigit_of_mem_zeros hc⟩
  · next hsmall =>
    have hexponent : ∀ fraction : List Char, fraction.length = decimalOffset - d.exponent →
        -(fraction.length : Int) = (d.exponent : Int) - decimalOffset := by
      intro fraction hlength
      omega
    split
    · next hmiddle =>
      rw [String.toList_ofList]
      have hsplit := List.take_append_drop (digits.length - (decimalOffset - d.exponent)) digits
      have htake : digits.take (digits.length - (decimalOffset - d.exponent)) ≠ [] := by
        rw [Ne, List.take_eq_nil_iff, not_or]
        exact ⟨by omega, hne⟩
      refine ⟨?_, d.coefficient, d.exponent, rfl, ?_⟩
      · obtain ⟨c, tail, hc⟩ := List.exists_cons_of_ne_nil htake
        have hmem : c ∈ digits.take (digits.length - (decimalOffset - d.exponent)) := by simp [hc]
        exact ⟨c, tail ++ _, by rw [hc]; rfl, hdigits c (List.mem_of_mem_take hmem)⟩
      · rw [unsigned?_point htake (fun c hc => hdigits c (List.mem_of_mem_take hc))
          (fun c hc => hdigits c (List.mem_of_mem_drop hc)), hsplit, hvalue, hexponent]
        rw [List.length_drop]
        omega
    · next hlong =>
      rw [String.toList_ofList]
      refine ⟨⟨'0', _, rfl, rfl⟩, d.coefficient, d.exponent, rfl, ?_⟩
      have hzero : ∀ c ∈ ['0'], c.isDigit = true := by simp
      have hread := @unsigned?_point ['0']
        (List.replicate (decimalOffset - d.exponent - digits.length) '0' ++ digits) (by simp) hzero
        (List.forall_mem_append.2 ⟨fun c hc => isDigit_of_mem_zeros hc, hdigits⟩) negative
      have hwhole : ['0'] ++ (List.replicate (decimalOffset - d.exponent - digits.length) '0' ++
          digits) = List.replicate (decimalOffset - d.exponent - digits.length + 1) '0' ++ digits :=
        rfl
      rw [hwhole, ofDigits_zeros_append, hvalue, hexponent] at hread
      · exact hread
      · rw [List.length_append, List.length_replicate]
        omega

/-! ## Numbers -/

theorem read?_digit {c : Char} (h : c.isDigit = true) (rest : List Char) :
    read? (c :: rest) = unsigned? false (c :: rest) := by
  have hminus : c ≠ '-' := by
    rintro rfl
    cases h
  have hplus : c ≠ '+' := by
    rintro rfl
    cases h
  rw [← afterSign?_of_isDigit h]
  unfold read?
  split
  · next heq => exact absurd (List.cons.inj heq).1 hminus
  · next heq => exact absurd (List.cons.inj heq).1 hplus
  · rfl

/-- A text with a sign before its digits is read with that sign. -/
theorem read?_signed {c : Char} {rest : List Char} (h : c.isDigit = true) (negative : Bool) :
    read? ((if negative then "-" else "").toList ++ c :: rest) =
      unsigned? negative (c :: rest) := by
  cases negative with
  | false => exact read?_digit h rest
  | true => exact afterSign?_of_isDigit h rest true

theorem read?_shortest {x : Scalar} (hfinite : x.isFinite = true) (hzero : x.isZero = false) :
    read? ((if x.negative then "-" else "").toList ++ x.shortest.positional.toList) = some x := by
  obtain ⟨⟨d, rest, hhead, hd⟩, c, e, hvalue, hread⟩ :=
    unsigned?_positional x.shortest x.negative
  have hcontains := contains_shortest hzero
  rw [← Nat.mul_assoc, ← hvalue, Nat.mul_assoc] at hcontains
  rw [hhead] at hread ⊢
  rw [read?_signed hd, hread, ofDecimal_of_contains hfinite hzero hcontains]

theorem pow_sub_mul (p t : Nat) : 2 ^ (p - t) * 2 ^ t = 2 ^ p * 2 ^ (t - p) := by
  rw [← Nat.pow_add, ← Nat.pow_add]
  congr 1
  omega

theorem units_of_isIntegral {x : Scalar} (hfinite : x.isFinite = true)
    (h : x.isIntegral = true) : x.units = x.units / unitsPerOne * unitsPerOne := by
  have hwhole : x.significand % 2 ^ (places - x.shift) = 0 := by
    have hfin : x.isInfinite = false := by
      simp only [isFinite, isInfinite, decide_eq_true_eq, decide_eq_false_iff_not] at hfinite ⊢
      omega
    simpa [isIntegral, hfin, hfinite] using h
  obtain ⟨k, hk⟩ := Nat.dvd_of_mod_eq_zero hwhole
  have hdvd : unitsPerOne ∣ x.units := by
    refine ⟨k * 2 ^ (x.shift - places), ?_⟩
    rw [units, hk, unitsPerOne, Nat.pow_eq, Nat.pow_eq]
    rw [Nat.mul_right_comm, pow_sub_mul, Nat.mul_assoc, Nat.mul_comm k]
  exact (Nat.div_mul_cancel hdvd).symm

theorem contains_units {x : Scalar} (hzero : x.isZero = false) :
    x.neighbourhood.contains (2 * x.units) 1 = true := by
  have hpos := Nat.two_pow_pos x.shift
  have heven : fractionCount % 2 = 0 := by decide
  have hunits := units_pos hzero
  rw [contains_iff]
  simp only [neighbourhood, Nat.pow_eq, beq_eq_false_iff_ne, ne_eq]
  refine ⟨by omega, by omega, fun hodd => ⟨?_, by omega⟩⟩
  rw [if_neg]
  · omega
  · rintro ⟨hpower, -⟩
    exact hodd (hpower ▸ heven)

/-- A whole number is read as the scalar that it is. -/
theorem ofDecimal_of_isIntegral {x : Scalar} (hfinite : x.isFinite = true)
    (hzero : x.isZero = false) (h : x.isIntegral = true) :
    ofDecimal x.negative (x.units / unitsPerOne) 0 = x := by
  have hvalue : x.units / unitsPerOne * (10 ^ decimalOffset * (2 * unitsPerOne)) =
      2 * x.units * 10 ^ decimalOffset := by
    calc x.units / unitsPerOne * (10 ^ decimalOffset * (2 * unitsPerOne))
        = 2 * (x.units / unitsPerOne * unitsPerOne) * 10 ^ decimalOffset := by ring
      _ = 2 * x.units * 10 ^ decimalOffset := by rw [← units_of_isIntegral hfinite h]
  have hcontains : x.neighbourhood.contains
      (x.units / unitsPerOne * (10 ^ decimalOffset * (2 * unitsPerOne))) (10 ^ decimalOffset) =
      true := by
    rw [hvalue, ← Nat.one_mul (10 ^ decimalOffset), ← Nat.mul_assoc, Nat.mul_one,
      contains_mul (Nat.pow_pos (by decide))]
    exact contains_units hzero
  have hread := ofDecimal_of_contains hfinite hzero hcontains
  rwa [Int.sub_self] at hread

/-- The scalar, a zero without its sign. -/
def withoutZeroSign (x : Scalar) : Scalar := if x.isZero then zero else x

theorem isNaN_withoutZeroSign (x : Scalar) : x.withoutZeroSign.isNaN = x.isNaN := by
  unfold withoutZeroSign
  split
  · next hzero =>
    have hmagnitude : x.magnitude = 0 := by simpa [isZero] using hzero
    simp only [isNaN, hmagnitude]
    rfl
  · rfl

theorem position_withoutZeroSign (x : Scalar) : x.withoutZeroSign.position = x.position := by
  unfold withoutZeroSign
  split
  · next hzero =>
    have hmagnitude : x.magnitude = 0 := by simpa [isZero] using hzero
    have hposition : x.position = 0 := by simp [position, hmagnitude]
    rw [hposition]
    decide
  · rfl

theorem isIntegral_of_isZero {x : Scalar} (h : x.isZero = true) :
    x.units = 0 ∧ x.isFinite = true ∧ x.isIntegral = true := by
  have hmagnitude : x.magnitude = 0 := by simpa [isZero] using h
  have hsignificand : x.significand = 0 := by
    rw [significand, hmagnitude]
    decide
  have hfinite : x.isFinite = true := by
    rw [isFinite, hmagnitude]
    decide
  refine ⟨by simp [units, hsignificand], hfinite, ?_⟩
  simp [isIntegral, hfinite, hsignificand]

theorem eq_infinity {x : Scalar} (h : x.isInfinite = true) : x = infinity x.negative := by
  have hmagnitude : x.magnitude = infinityMagnitude := by simpa [isInfinite] using h
  obtain ⟨negative, magnitude, hlt⟩ := x
  simp only [infinity, ofMagnitude, Nat.min_self, Scalar.mk.injEq, true_and]
  exact hmagnitude

theorem read?_infinity (negative : Bool) :
    read? ((if negative then "-" else "") ++ "inf").toList = some (infinity negative) := by
  cases negative <;> decide +kernel

theorem isFinite_of_not_isInfinite {x : Scalar} (h : x.isNaN = false)
    (hinfinite : x.isInfinite = false) : x.isFinite = true := by
  simp only [isNaN, isInfinite, isFinite, decide_eq_false_iff_not, decide_eq_true_eq] at *
  omega

theorem read?_plain {x : Scalar} (h : x.isNaN = false) (hzero : x.isZero = false) :
    read? x.plain.toList = some x := by
  rw [plain, h, hzero]
  dsimp only
  by_cases hinfinite : x.isInfinite = true
  · rw [if_pos hinfinite]
    refine Eq.trans (read?_infinity x.negative) ?_
    rw [← eq_infinity hinfinite]
  · rw [if_neg hinfinite]
    have hfinite := isFinite_of_not_isInfinite h (by simpa using hinfinite)
    refine Eq.trans (congrArg read? (String.toList_append)) ?_
    exact read?_shortest hfinite hzero

theorem read?_whole (n : Nat) (negative : Bool) :
    read? ((if negative then "-" else "") ++ String.ofList (Nat.toDigits 10 n)).toList =
      some (ofDecimal negative n 0) := by
  obtain ⟨c, rest, hdigits⟩ :=
    List.exists_cons_of_ne_nil (show Nat.toDigits 10 n ≠ [] by simp)
  have hall : ∀ d ∈ Nat.toDigits 10 n, d.isDigit = true :=
    fun d hd => Text.isDigit_of_mem_toDigits hd
  rw [String.toList_append, String.toList_ofList, hdigits,
    read?_signed (hall c (by simp [hdigits])), ← hdigits, unsigned?_whole (by simp) hall,
    Text.ofDigits_toDigits]

theorem compact_of_isZero {x : Scalar} (h : x.isZero = true) : x.compact = "0" := by
  obtain ⟨hunits, hfinite, hintegral⟩ := isIntegral_of_isZero h
  simp [compact, hunits, hfinite, hintegral]

/-- The text of a number is read as that number. -/
theorem read?_compact {x : Scalar} (h : x.isNaN = false) :
    read? x.compact.toList = some x.withoutZeroSign := by
  by_cases hzero : x.isZero = true
  · rw [compact_of_isZero hzero, withoutZeroSign, if_pos hzero]
    decide +kernel
  · rw [withoutZeroSign, if_neg hzero]
    have hzero' : x.isZero = false := by simpa using hzero
    unfold compact
    dsimp only
    split
    · next hwhole =>
      simp only [Bool.and_eq_true] at hwhole
      obtain ⟨⟨hfinite, hintegral⟩, -⟩ := hwhole
      have hne : (x.units / unitsPerOne != 0) = true := by
        rw [bne_iff_ne]
        intro hnone
        have hunits := units_of_isIntegral hfinite hintegral
        rw [hnone, Nat.zero_mul] at hunits
        have := units_pos hzero'
        omega
      rw [hne, Bool.and_true, read?_whole, ofDecimal_of_isIntegral hfinite hzero' hintegral]
    · exact read?_plain h hzero'

/-- The scalar as it is read from its text: a zero without its sign, and one NaN. -/
def reread (x : Scalar) : Scalar := if x.isNaN then nan false else x.withoutZeroSign

theorem compact_of_isNaN {x : Scalar} (h : x.isNaN = true) : x.compact = "NaN" := by
  have hfinite : x.isFinite = false := by
    simp only [isNaN, isFinite, decide_eq_true_eq, decide_eq_false_iff_not] at h ⊢
    omega
  simp [compact, plain, h, hfinite]

/-- The text of every scalar is read as that scalar, which may lose a sign. -/
theorem read?_compact_eq_reread (x : Scalar) : read? x.compact.toList = some x.reread := by
  by_cases h : x.isNaN = true
  · rw [compact_of_isNaN h, reread, if_pos h]
    decide +kernel
  · rw [reread, if_neg h]
    exact read?_compact (by simpa using h)

theorem isNaN_reread (x : Scalar) : x.reread.isNaN = x.isNaN := by
  unfold reread
  split
  · next h =>
    rw [h]
    decide +kernel
  · exact isNaN_withoutZeroSign x

/-- What is lost shows in no text. -/
theorem compact_reread (x : Scalar) : x.reread.compact = x.compact := by
  unfold reread
  split
  · next h =>
    rw [compact_of_isNaN h]
    decide +kernel
  · unfold withoutZeroSign
    split
    · next h =>
      rw [compact_of_isZero h]
      decide +kernel
    · rfl

/-- Numbers are compared alike before and after they are read. -/
theorem numEq_reread (x y : Scalar) : x.reread.numEq y.reread = x.numEq y := by
  by_cases hx : x.isNaN = true
  · simp [numEq, isNaN_reread, hx]
  · by_cases hy : y.isNaN = true
    · simp [numEq, isNaN_reread, hy]
    · simp only [reread, if_neg hx, if_neg hy]
      simp only [numEq, isNaN_withoutZeroSign, position_withoutZeroSign]

theorem reread_numEq {x : Scalar} (h : x.isNaN = false) : x.reread.numEq x = true := by
  simp [reread, h, numEq, isNaN_withoutZeroSign, position_withoutZeroSign]

/-! ## Characters -/

theorem isPlain_sign (negative : Bool) : Text.IsPlain (if negative then "-" else "").toList := by
  cases negative <;> decide

theorem isPlain_positional (d : Decimal) : Text.IsPlain d.positional.toList := by
  have hdigits := Text.isPlain_toDigits d.coefficient
  have hzeros : ∀ n, Text.IsPlain (List.replicate n '0') :=
    fun n c hc => Text.isPlain_of_isDigit (isDigit_of_mem_zeros hc)
  have hpoint : Text.isPlain '.' = true := by decide
  unfold Decimal.positional
  dsimp only
  split
  · rw [String.toList_ofList]
    exact Text.isPlain_append.2 ⟨hdigits, hzeros _⟩
  · split
    · rw [String.toList_ofList]
      apply Text.isPlain_append.2
      refine ⟨fun c hc => hdigits c (List.mem_of_mem_take hc), ?_⟩
      exact List.forall_mem_cons.2 ⟨hpoint, fun c hc => hdigits c (List.mem_of_mem_drop hc)⟩
    · rw [String.toList_ofList]
      apply Text.isPlain_append.2
      refine ⟨?_, hdigits⟩
      exact List.forall_mem_cons.2 ⟨by decide, List.forall_mem_cons.2 ⟨hpoint, hzeros _⟩⟩

/-- The text of a scalar has plain characters only. -/
theorem isPlain_compact (x : Scalar) : Text.IsPlain x.compact.toList := by
  unfold compact
  dsimp only
  split
  · rw [String.toList_append, String.toList_ofList]
    exact Text.isPlain_append.2 ⟨isPlain_sign _, Text.isPlain_toDigits _⟩
  · unfold plain
    dsimp only
    split
    · decide
    · split
      · rw [String.toList_append]
        exact Text.isPlain_append.2 ⟨isPlain_sign _, by decide⟩
      · split
        · rw [String.toList_append]
          exact Text.isPlain_append.2 ⟨isPlain_sign _, by decide⟩
        · rw [String.toList_append]
          exact Text.isPlain_append.2 ⟨isPlain_sign _, isPlain_positional _⟩

end Scalar

end StabCircuit
