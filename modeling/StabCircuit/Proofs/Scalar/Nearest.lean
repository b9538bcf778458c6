import Mathlib.Tactic.Linarith
import Mathlib.Tactic.Ring
import StabCircuit.Scalar.Rounding
import StabCircuit.Scalar.Shortest

/-!
# Numbers near a double

The neighbourhood of a positive finite scalar holds only numbers that round to it,
and for some number of at most seventeen decimal digits it holds a decimal.  So the
decimal that is searched for exists and rounds to the scalar.
-/

namespace StabCircuit

/-- What rounds to `k`: everything less than a half away, and an exact half when `k` is even. -/
theorem roundHalfEven_eq {num den k : Nat} (hden : 0 < den) (hlow : 2 * (k * den) ≤ 2 * num + den)
    (hhigh : 2 * num ≤ 2 * (k * den) + den)
    (hodd : k % 2 = 1 → 2 * (k * den) < 2 * num + den ∧ 2 * num < 2 * (k * den) + den) :
    roundHalfEven num den = k := by
  have hsplit : num = num / den * den + num % den := by
    rw [Nat.mul_comm]
    exact (Nat.div_add_mod num den).symm
  have hrest : num % den < den := Nat.mod_lt num hden
  simp only [roundHalfEven]
  generalize num / den = q at hsplit ⊢
  generalize num % den = r at hsplit hrest ⊢
  -- The quotient is `k` or one less, as multiples of `den` show.
  have hcases : q = k ∨ q + 1 = k := by
    by_contra hne
    rcases Nat.lt_or_ge k q with h | h
    · have := Nat.mul_le_mul_right den (Nat.succ_le_of_lt h)
      rw [Nat.succ_mul] at this
      omega
    · have := Nat.mul_le_mul_right den (show q + 2 ≤ k by omega)
      rw [Nat.add_mul] at this
      omega
  rcases hcases with rfl | rfl
  · split
    · rfl
    · split
      · omega
      · have : q % 2 ≠ 1 := fun h => by
          have := hodd h
          omega
        omega
  · rw [Nat.add_mul] at hlow hhigh hodd
    split
    · omega
    · split
      · rfl
      · have : (q + 1) % 2 ≠ 1 := fun h => by
          have := hodd h
          omega
        omega

namespace Scalar

/-! ## Shift and significand -/

theorem magnitude_eq (x : Scalar) : x.magnitude = x.shift * fractionCount + x.significand := by
  have hpos : 0 < fractionCount := by decide
  have hsplit := Nat.div_add_mod x.magnitude fractionCount
  simp only [shift, significand]
  split
  · next h => simp [Nat.div_eq_of_lt h]
  · next h =>
    have hone : 1 ≤ x.magnitude / fractionCount := (Nat.le_div_iff_mul_le hpos).2 (by omega)
    have hexpand : fractionCount * (x.magnitude / fractionCount) =
        (x.magnitude / fractionCount - 1) * fractionCount + fractionCount := by
      rw [Nat.mul_comm, ← Nat.succ_mul]
      congr 1
      omega
    omega

theorem significand_lt (x : Scalar) : x.significand < 2 * fractionCount := by
  have hpos : 0 < fractionCount := by decide
  have hmod := Nat.mod_lt x.magnitude hpos
  simp only [significand]
  split <;> omega

theorem le_significand {x : Scalar} (h : 0 < x.shift) : fractionCount ≤ x.significand := by
  have hnormal : ¬ x.magnitude < fractionCount := by
    intro hlt
    simp [shift, Nat.div_eq_of_lt hlt] at h
  simp only [significand, if_neg hnormal]
  omega

theorem significand_pos {x : Scalar} (h : x.isZero = false) : 0 < x.significand := by
  have hne : x.magnitude ≠ 0 := by simpa [isZero] using h
  simp only [significand]
  split
  · omega
  · have : 0 < fractionCount := by decide
    omega

/-- A sign and the magnitude of a finite scalar make it up. -/
theorem ofMagnitude_eq {x : Scalar} {magnitude : Nat} (hfinite : x.isFinite = true)
    (h : magnitude = x.magnitude) : ofMagnitude x.negative magnitude = x := by
  have hlt : x.magnitude < infinityMagnitude := by simpa [isFinite] using hfinite
  have hmin : min magnitude infinityMagnitude = x.magnitude := by omega
  obtain ⟨negative, m, hm⟩ := x
  simp only [ofMagnitude, Scalar.mk.injEq, true_and]
  exact hmin

/-! ## Rounding inside a neighbourhood -/

/-- The shift that rounding finds from the size of the whole part. -/
theorem log2_sub {n t : Nat} (hlow : t = 0 ∨ 2 ^ (52 + t) ≤ n) (hhigh : n < 2 ^ (53 + t)) :
    n.log2 - 52 = t := by
  by_cases hn : n = 0
  · subst hn
    have : t = 0 := by
      rcases hlow with h | h
      · exact h
      · have := Nat.two_pow_pos (52 + t)
        omega
    simp [this]
  · have hupper : n.log2 < 53 + t := (Nat.log2_lt hn).2 hhigh
    rcases hlow with h | h
    · omega
    · have hlower : 52 + t ≤ n.log2 := (Nat.le_log2 hn).2 h
      omega

theorem ofUnits_eq {x : Scalar} (hfinite : x.isFinite = true) {num den t k : Nat}
    (hlow : t = 0 ∨ 2 ^ (52 + t) ≤ num / den) (hhigh : num / den < 2 ^ (53 + t))
    (hround : roundHalfEven num (den * 2 ^ t) = k)
    (hmagnitude : t * fractionCount + k = x.magnitude) : ofUnits x.negative num den = x := by
  simp only [ofUnits, log2_sub hlow hhigh, Nat.pow_eq, hround]
  exact ofMagnitude_eq hfinite hmagnitude

/-- What a neighbourhood contains, with its ends written out. -/
theorem contains_iff {n : Neighbourhood} {num den : Nat} :
    n.contains num den = true ↔ n.low * den ≤ num ∧ num ≤ n.high * den ∧
      (n.closed = false → n.low * den < num ∧ num < n.high * den) := by
  unfold Neighbourhood.contains
  cases n.closed
  · simp
    omega
  · simp

theorem pow_add_eq (t : Nat) : 2 ^ (52 + t) = fractionCount * 2 ^ t := by
  rw [Nat.pow_add]
  rfl

/-- Rounding at the shift of the scalar itself. -/
theorem ofUnits_same_shift {x : Scalar} (hfinite : x.isFinite = true) {num den : Nat}
    (hden : 0 < den)
    (hsize : x.shift = 0 ∨ fractionCount * (den * 2 ^ x.shift) ≤ num)
    (hlow : 2 * (x.significand * (den * 2 ^ x.shift)) ≤ 2 * num + den * 2 ^ x.shift)
    (hhigh : 2 * num ≤ 2 * (x.significand * (den * 2 ^ x.shift)) + den * 2 ^ x.shift)
    (hodd : x.significand % 2 = 1 →
      2 * (x.significand * (den * 2 ^ x.shift)) < 2 * num + den * 2 ^ x.shift ∧
        2 * num < 2 * (x.significand * (den * 2 ^ x.shift)) + den * 2 ^ x.shift) :
    ofUnits x.negative num den = x := by
  have hstep : 0 < den * 2 ^ x.shift := Nat.mul_pos hden (Nat.two_pow_pos _)
  refine ofUnits_eq hfinite ?_ ?_ (roundHalfEven_eq hstep hlow hhigh hodd) x.magnitude_eq.symm
  · refine hsize.imp_right fun h => ?_
    rw [Nat.le_div_iff_mul_le hden, pow_add_eq, Nat.mul_assoc, Nat.mul_comm (2 ^ x.shift)]
    exact h
  · have hbound : (x.significand + 1) * (den * 2 ^ x.shift) ≤
        2 * fractionCount * (den * 2 ^ x.shift) :=
      Nat.mul_le_mul_right _ x.significand_lt
    have hpow : 2 ^ (53 + x.shift) * den = 2 * fractionCount * (den * 2 ^ x.shift) := by
      rw [show 53 + x.shift = 52 + x.shift + 1 by omega, Nat.pow_succ, pow_add_eq]
      ring
    rw [Nat.div_lt_iff_lt_mul hden, hpow]
    rw [Nat.add_mul] at hbound
    omega

/-- Rounding below a power of two, where the shift is one less than that of the scalar. -/
theorem ofUnits_lower_shift {x : Scalar} (hfinite : x.isFinite = true) {num den t : Nat}
    (hden : 0 < den) (hshift : x.shift = t + 1) (hsignificand : x.significand = fractionCount)
    (hlow : 4 * (fractionCount * (den * 2 ^ t)) ≤ 2 * num + den * 2 ^ t)
    (hhigh : num < 2 * (fractionCount * (den * 2 ^ t))) :
    ofUnits x.negative num den = x := by
  have hstep : 0 < den * 2 ^ t := Nat.mul_pos hden (Nat.two_pow_pos _)
  have hone : den * 2 ^ t ≤ fractionCount * (den * 2 ^ t) :=
    Nat.le_mul_of_pos_left _ (by decide)
  have hround : roundHalfEven num (den * 2 ^ t) = 2 * fractionCount := by
    have heven : 2 * fractionCount % 2 = 0 := Nat.mul_mod_right 2 _
    apply roundHalfEven_eq hstep
    · rw [Nat.mul_assoc]
      omega
    · rw [Nat.mul_assoc]
      omega
    · omega
  refine ofUnits_eq hfinite ?_ ?_ hround ?_
  · right
    rw [Nat.le_div_iff_mul_le hden, pow_add_eq, Nat.mul_assoc, Nat.mul_comm (2 ^ t)]
    omega
  · rw [Nat.div_lt_iff_lt_mul hden, show 53 + t = 52 + t + 1 by omega, Nat.pow_succ, pow_add_eq]
    calc num < 2 * (fractionCount * (den * 2 ^ t)) := hhigh
      _ = fractionCount * 2 ^ t * 2 * den := by ring
  · rw [x.magnitude_eq, hshift, hsignificand]
    ring

/-- Every quotient in the neighbourhood of a finite scalar rounds to it. -/
theorem ofUnits_of_contains {x : Scalar} (hfinite : x.isFinite = true) {num den : Nat}
    (hden : 0 < den) (h : x.neighbourhood.contains (2 * num) den = true) :
    ofUnits x.negative num den = x := by
  obtain ⟨hlow, hhigh, hopen⟩ := contains_iff.1 h
  simp only [neighbourhood, Nat.pow_eq, units, beq_eq_false_iff_ne, ne_eq] at hlow hhigh hopen
  have hcentre : 2 * (x.significand * 2 ^ x.shift) * den =
      2 * (x.significand * (den * 2 ^ x.shift)) := by ring
  rw [Nat.add_mul, hcentre, Nat.mul_comm (2 ^ x.shift) den] at hhigh hopen
  rw [Nat.sub_mul, hcentre] at hlow hopen
  by_cases hpower : x.significand = fractionCount ∧ 0 < x.shift
  · obtain ⟨hsignificand, hshift⟩ := hpower
    obtain ⟨t, ht⟩ : ∃ t, x.shift = t + 1 := ⟨x.shift - 1, by omega⟩
    have heven : fractionCount % 2 = 0 := by decide
    have hhalf : 2 ^ x.shift / 2 * den = den * 2 ^ t := by
      rw [ht, Nat.pow_succ, Nat.mul_div_cancel _ (by decide), Nat.mul_comm]
    have hwhole : den * 2 ^ x.shift = 2 * (den * 2 ^ t) := by
      rw [ht, Nat.pow_succ]
      ring
    have hdouble : x.significand * (2 * (den * 2 ^ t)) =
        2 * (fractionCount * (den * 2 ^ t)) := by
      rw [hsignificand]
      ring
    rw [if_pos ⟨hsignificand, hshift⟩, hhalf, hwhole, hdouble] at hlow
    rw [hwhole, hdouble] at hhigh
    by_cases hbelow : num < 2 * (fractionCount * (den * 2 ^ t))
    · exact ofUnits_lower_shift hfinite hden ht hsignificand (by omega) hbelow
    · have hsize : fractionCount * (den * 2 ^ x.shift) ≤ num := by
        rw [hwhole, ← hsignificand, hdouble]
        omega
      apply ofUnits_same_shift hfinite hden (.inr hsize)
      · rw [hwhole, hdouble]
        omega
      · rw [hwhole, hdouble]
        omega
      · intro hodd
        rw [hsignificand] at hodd
        omega
  · rw [if_neg hpower, Nat.mul_comm (2 ^ x.shift) den] at hlow hopen
    have hsize : x.shift = 0 ∨ fractionCount * (den * 2 ^ x.shift) ≤ num := by
      rcases Nat.eq_zero_or_pos x.shift with hzero | hpos
      · exact .inl hzero
      · have hlarge : fractionCount + 1 ≤ x.significand := by
          have := le_significand hpos
          omega
        have hmul := Nat.mul_le_mul_right (den * 2 ^ x.shift) hlarge
        rw [Nat.add_mul] at hmul
        exact .inr (by omega)
    apply ofUnits_same_shift hfinite hden hsize
    · omega
    · omega
    · intro hodd
      have := hopen (by omega)
      omega

/-! ## The search for a decimal -/

theorem digitCount_le_iff {n k : Nat} (hk : 0 < k) : digitCount n ≤ k ↔ n < 10 ^ k :=
  Nat.length_toDigits_le_iff (by decide) hk

theorem pow_digitCount_le {n : Nat} (h : 0 < n) : 10 ^ (digitCount n - 1) ≤ n := by
  rcases Nat.eq_zero_or_pos (digitCount n - 1) with hzero | hpos
  · rw [hzero]
    omega
  · by_contra hlt
    have := (digitCount_le_iff hpos).2 (Nat.lt_of_not_le hlt)
    omega

theorem decimalAt?_spec {n : Neighbourhood} {e : Nat} {d : Decimal}
    (h : decimalAt? n e = some d) :
    d.exponent = e ∧ n.contains (d.coefficient * (10 ^ d.exponent * (2 * unitsPerOne)))
      (10 ^ decimalOffset) = true := by
  simp only [decimalAt?, Nat.pow_eq] at h
  split at h
  · next hdown =>
    cases h
    simp only [Bool.and_eq_true] at hdown
    exact ⟨rfl, hdown.1⟩
  · split at h
    · next hup =>
      cases h
      exact ⟨rfl, hup⟩
    · cases h

theorem isSome_decimalAt? {n : Neighbourhood} {e : Nat}
    (h : n.contains (n.centre * 10 ^ decimalOffset / (10 ^ e * (2 * unitsPerOne)) *
        (10 ^ e * (2 * unitsPerOne))) (10 ^ decimalOffset) = true ∨
      n.contains ((n.centre * 10 ^ decimalOffset / (10 ^ e * (2 * unitsPerOne)) + 1) *
        (10 ^ e * (2 * unitsPerOne))) (10 ^ decimalOffset) = true) :
    (decimalAt? n e).isSome = true := by
  simp only [decimalAt?, Nat.pow_eq]
  split
  · rfl
  · next hdown =>
    split
    · rfl
    · next hup =>
      rcases h with h | h
      · simp [h, hup] at hdown
      · exact absurd h hup

/-- One of the two multiples of `grid` around the middle lies in a neighbourhood, when multiples
are closer together than its ends, or closer than the upper end is to the middle. -/
theorem contains_neighbour {n : Neighbourhood} {grid den below step : Nat} (hgrid : 0 < grid)
    (hbelow : below ≤ n.centre) (hlow : n.low = n.centre - below)
    (hhigh : n.high = n.centre + step)
    (h : grid < step * den ∨ below = step ∧ grid < 2 * (step * den)) :
    n.contains (n.centre * den / grid * grid) den = true ∨
      n.contains ((n.centre * den / grid + 1) * grid) den = true := by
  have hdown : n.centre * den / grid * grid ≤ n.centre * den := Nat.div_mul_le_self _ _
  have hup : n.centre * den < n.centre * den / grid * grid + grid := Nat.lt_div_mul_add hgrid
  have hlow' : n.low * den = n.centre * den - below * den := by rw [hlow, Nat.sub_mul]
  have hhigh' : n.high * den = n.centre * den + step * den := by rw [hhigh, Nat.add_mul]
  have hle : below * den ≤ n.centre * den := Nat.mul_le_mul_right den hbelow
  rw [Nat.add_mul, Nat.one_mul]
  simp only [contains_iff, hlow', hhigh']
  by_cases hnear : n.centre * den < n.centre * den / grid * grid + below * den
  · left
    omega
  · right
    rcases h with h | ⟨rfl, h⟩
    · omega
    · omega

theorem firstDecimal_spec {n : Neighbourhood} {e k tries : Nat} (hk : k < tries)
    (h : (decimalAt? n (e - k)).isSome = true) :
    n.contains ((firstDecimal n e tries).coefficient *
      (10 ^ (firstDecimal n e tries).exponent * (2 * unitsPerOne))) (10 ^ decimalOffset) = true := by
  induction tries generalizing e k with
  | zero => omega
  | succ tries ih =>
    rw [firstDecimal]
    split
    · next d hd => exact (decimalAt?_spec hd).2
    · next hnone =>
      obtain ⟨j, rfl⟩ : ∃ j, k = j + 1 := by
        refine ⟨k - 1, ?_⟩
        rcases Nat.eq_zero_or_pos k with rfl | hpos
        · simp [hnone] at h
        · omega
      apply @ih _ j (by omega)
      rwa [Nat.sub_sub, Nat.add_comm 1 j]

/-- The exponent of the leading digit of a scalar. -/
def leading (x : Scalar) : Nat :=
  digitCount (x.units * 10 ^ decimalOffset / unitsPerOne) - 1

theorem units_pos {x : Scalar} (h : x.isZero = false) : 0 < x.units :=
  Nat.mul_pos (significand_pos h) (Nat.two_pow_pos _)

theorem le_leading {x : Scalar} (h : x.isZero = false) : 16 ≤ x.leading := by
  have hpos : 0 < unitsPerOne := by decide +kernel
  have hsmall : 10 ^ 16 * unitsPerOne ≤ 10 ^ decimalOffset := by decide +kernel
  have hvalue : 10 ^ 16 ≤ x.units * 10 ^ decimalOffset / unitsPerOne := by
    rw [Nat.le_div_iff_mul_le hpos]
    exact hsmall.trans (Nat.le_mul_of_pos_left _ (units_pos h))
  have hlong : ¬ digitCount (x.units * 10 ^ decimalOffset / unitsPerOne) ≤ 16 := by
    rw [digitCount_le_iff (by decide)]
    exact Nat.not_lt.2 hvalue
  unfold leading
  omega

theorem pow_leading_le {x : Scalar} (h : x.isZero = false) :
    10 ^ x.leading * unitsPerOne ≤ x.units * 10 ^ decimalOffset := by
  have hpos : 0 < unitsPerOne := by decide +kernel
  rw [← Nat.le_div_iff_mul_le hpos]
  apply pow_digitCount_le
  by_contra hzero
  have hleading := le_leading h
  rw [leading, Nat.eq_zero_of_not_pos hzero] at hleading
  simp [digitCount] at hleading

/-- Seventeen digits are enough: the last grid that is tried hits. -/
theorem isSome_decimalAt?_last {x : Scalar} (h : x.isZero = false) :
    (decimalAt? x.neighbourhood (x.leading - 16)).isSome = true := by
  have hgrid : 0 < 10 ^ (x.leading - 16) * (2 * unitsPerOne) :=
    Nat.mul_pos (Nat.pow_pos (by decide)) (by decide +kernel)
  have hpositive : 0 < 2 ^ x.shift * 10 ^ decimalOffset :=
    Nat.mul_pos (Nat.two_pow_pos _) (Nat.pow_pos (by decide))
  have hscale : 10 ^ 16 * (10 ^ (x.leading - 16) * (2 * unitsPerOne)) ≤
      2 * (x.significand * (2 ^ x.shift * 10 ^ decimalOffset)) := by
    calc 10 ^ 16 * (10 ^ (x.leading - 16) * (2 * unitsPerOne))
        = 2 * (10 ^ (16 + (x.leading - 16)) * unitsPerOne) := by
          rw [Nat.pow_add]
          ring
      _ = 2 * (10 ^ x.leading * unitsPerOne) := by rw [Nat.add_sub_of_le (le_leading h)]
      _ ≤ 2 * (x.units * 10 ^ decimalOffset) := Nat.mul_le_mul_left 2 (pow_leading_le h)
      _ = 2 * (x.significand * (2 ^ x.shift * 10 ^ decimalOffset)) := by
          rw [units, Nat.pow_eq, Nat.mul_assoc]
  have hone : 2 ^ x.shift ≤ 2 * x.units := by
    have : 2 ^ x.shift ≤ x.units := Nat.le_mul_of_pos_left _ (significand_pos h)
    omega
  have hfraction : fractionCount = 4503599627370496 := rfl
  apply isSome_decimalAt?
  by_cases hpower : x.significand = fractionCount ∧ 0 < x.shift
  · refine @contains_neighbour _ _ _ (2 ^ x.shift / 2) (2 ^ x.shift) hgrid ?_ ?_ rfl (.inl ?_)
    · exact (Nat.div_le_self _ _).trans hone
    · simp only [neighbourhood, if_pos hpower, Nat.pow_eq]
    · rw [hpower.1, hfraction] at hscale
      omega
  · refine @contains_neighbour _ _ _ (2 ^ x.shift) (2 ^ x.shift) hgrid hone ?_ rfl (.inr ⟨rfl, ?_⟩)
    · simp only [neighbourhood, if_neg hpower, Nat.pow_eq]
    · have hbound := Nat.mul_le_mul_right (2 ^ x.shift * 10 ^ decimalOffset)
        (Nat.le_of_lt x.significand_lt)
      rw [hfraction] at hbound
      omega

/-- The shortest decimal of a scalar lies in its neighbourhood. -/
theorem contains_shortest {x : Scalar} (h : x.isZero = false) :
    x.neighbourhood.contains
      (x.shortest.coefficient * (10 ^ x.shortest.exponent * (2 * unitsPerOne)))
      (10 ^ decimalOffset) = true := by
  have hfound := @firstDecimal_spec _ _ 16 17 (by decide) (isSome_decimalAt?_last h)
  have hshortest : x.shortest = if (firstDecimal x.neighbourhood x.leading 17).coefficient % 10 = 0
      then ⟨(firstDecimal x.neighbourhood x.leading 17).coefficient / 10,
        (firstDecimal x.neighbourhood x.leading 17).exponent + 1⟩
      else firstDecimal x.neighbourhood x.leading 17 := rfl
  rw [hshortest]
  generalize firstDecimal x.neighbourhood x.leading 17 = d at hfound
  split
  · next hzero =>
    obtain ⟨c, hc⟩ := Nat.dvd_of_mod_eq_zero hzero
    have hvalue : c * (10 ^ (d.exponent + 1) * (2 * unitsPerOne)) =
        10 * c * (10 ^ d.exponent * (2 * unitsPerOne)) := by ring
    rw [hc] at hfound
    rw [hc, Nat.mul_div_cancel_left c (by decide), hvalue]
    exact hfound
  · exact hfound

end Scalar

end StabCircuit
