import StabCircuit.Proofs.Scalar.ReadBack

/-!
# Sums that need no rounding

A finite scalar stands for a whole number of units.  A sum that is itself the value of a
scalar is computed without rounding, and the smallest of some numbers by their bits is
the one with the smallest value.
-/

namespace StabCircuit

namespace Scalar

/-- A finite scalar stands for a number of units. -/
structure Represents (x : Scalar) (value : Int) : Prop where
  finite : x.isFinite = true
  units : x.signedUnits = value

variable {x y z : Scalar} {v w : Int}

instance : Decidable (x.Represents v) :=
  decidable_of_iff (x.isFinite = true ∧ x.signedUnits = v)
    ⟨fun h => ⟨h.1, h.2⟩, fun h => ⟨h.finite, h.units⟩⟩

/-! ## Sums -/

theorem units_eq_zero (h : x.magnitude = 0) : x.units = 0 := by
  simp [units, significand, h, fractionCount]

/-- A value that a scalar stands for is not rounded. -/
theorem ofUnits_units (h : x.isFinite = true) : ofUnits x.negative x.units 1 = x := by
  cases hzero : x.isZero with
  | false => exact ofUnits_of_contains h Nat.one_pos (contains_units hzero)
  | true =>
    have hmagnitude : x.magnitude = 0 := by simpa [isZero] using hzero
    rw [units_eq_zero hmagnitude]
    exact @ofUnits_eq x h 0 1 0 0 (.inl rfl) (by decide) rfl (by rw [hmagnitude, Nat.zero_mul])

theorem natAbs_signedUnits (x : Scalar) : x.signedUnits.natAbs = x.units := by
  unfold signedUnits
  split <;> simp

theorem negative_eq (h : x.signedUnits ≠ 0) : x.negative = decide (x.signedUnits < 0) := by
  unfold signedUnits at h ⊢
  cases x.negative
  · simp
  · simp at h ⊢
    omega

theorem represents_ofUnits_zero (negative : Bool) : (ofUnits negative 0 1).Represents 0 := by
  cases negative <;> exact ⟨by decide, by decide⟩

/-- Rounding a value that a scalar stands for gives that value. -/
theorem Represents.rounded (h : z.Represents v) {negative : Bool}
    (hsign : v ≠ 0 → negative = decide (v < 0)) : (ofUnits negative v.natAbs 1).Represents v := by
  by_cases hv : v = 0
  · subst hv
    exact represents_ofUnits_zero negative
  · have hz : z.negative = decide (v < 0) := by
      rw [← h.units] at hv ⊢
      exact negative_eq hv
    rw [hsign hv, ← hz, ← h.units, natAbs_signedUnits, ofUnits_units h.finite, h.units]
    exact h

theorem isNaN_eq_false (h : x.isFinite = true) : x.isNaN = false := by
  simp only [isFinite, isNaN, decide_eq_true_eq, decide_eq_false_iff_not] at h ⊢
  omega

theorem isInfinite_eq_false (h : x.isFinite = true) : x.isInfinite = false := by
  simp only [isFinite, isInfinite, decide_eq_true_eq, decide_eq_false_iff_not] at h ⊢
  omega

/-- A sum that a scalar stands for is computed without rounding. -/
theorem Represents.add (hx : x.Represents v) (hy : y.Represents w) (hz : z.Represents (v + w)) :
    (x + y).Represents (v + w) := by
  have hsum : x + y = ofUnits
      (if v + w = 0 then x.negative && y.negative else decide (v + w < 0)) (v + w).natAbs 1 := by
    rw [← hx.units, ← hy.units]
    change x.add y = _
    rw [Scalar.add, isNaN_eq_false hx.finite, isNaN_eq_false hy.finite,
      isInfinite_eq_false hx.finite, isInfinite_eq_false hy.finite]
    rfl
  rw [hsum]
  exact hz.rounded fun hne => if_neg hne

theorem represents_zero : (0 : Scalar).Represents 0 := by
  change (ofNat 0).Represents 0
  rw [ofNat, Nat.zero_mul]
  exact represents_ofUnits_zero false

theorem Represents.add_zero (hx : x.Represents v) : (x + 0).Represents v := by
  have hsum := hx.add represents_zero (by rwa [Int.add_zero])
  rwa [Int.add_zero] at hsum

/-! ## The smallest number -/

theorem units_le_units (h : x.magnitude ≤ y.magnitude) : x.units ≤ y.units := by
  have hx := x.magnitude_eq
  have hy := y.magnitude_eq
  have hxlt := x.significand_lt
  simp only [units, Nat.pow_eq]
  rcases Nat.lt_trichotomy x.shift y.shift with hlt | heq | hgt
  · have hylow := le_significand (x := y) (by omega)
    have hpow : 2 * 2 ^ x.shift ≤ 2 ^ y.shift := by
      rw [← Nat.pow_succ']
      exact Nat.pow_le_pow_right (by decide) hlt
    calc x.significand * 2 ^ x.shift ≤ 2 * fractionCount * 2 ^ x.shift :=
          Nat.mul_le_mul_right _ hxlt.le
      _ = fractionCount * (2 * 2 ^ x.shift) := by ring
      _ ≤ y.significand * 2 ^ y.shift := Nat.mul_le_mul hylow hpow
  · rw [heq] at hx ⊢
    exact Nat.mul_le_mul_right _ (by omega)
  · have hshift : (y.shift + 1) * fractionCount ≤ x.shift * fractionCount :=
      Nat.mul_le_mul_right _ hgt
    have hxlow := le_significand (x := x) (by omega)
    have hylt := y.significand_lt
    rw [Nat.add_mul] at hshift
    omega

/-- What comes later on the number line has no smaller value. -/
theorem signedUnits_le (h : x.position ≤ y.position) : x.signedUnits ≤ y.signedUnits := by
  unfold position at h
  unfold signedUnits
  cases hxs : x.negative <;> cases hys : y.negative <;>
    simp only [hxs, hys, Bool.false_eq_true, if_true, if_false] at h ⊢
  · have hunits := units_le_units (x := x) (y := y) (by omega)
    omega
  · have hx := units_eq_zero (x := x) (by omega)
    have hy := units_eq_zero (x := y) (by omega)
    omega
  · omega
  · have hunits := units_le_units (x := y) (y := x) (by omega)
    omega

theorem numMin_cases (hx : x.isFinite = true) (hy : y.isFinite = true) :
    (x.numMin y = x ∨ x.numMin y = y) ∧ (x.numMin y).position ≤ x.position ∧
      (x.numMin y).position ≤ y.position := by
  unfold numMin numLt
  rw [isNaN_eq_false hx, isNaN_eq_false hy]
  simp
  split <;> simp <;> omega

/-- The smallest of some finite numbers is one of them. -/
theorem foldl_numMin_spec {α : Type} {f : α → Scalar} {xs : List α}
    (h : ∀ a ∈ xs, (f a).isFinite = true) {start : Scalar} (hstart : start.isFinite = true) :
    (xs.foldl (fun m a => m.numMin (f a)) start = start ∨
        ∃ a ∈ xs, xs.foldl (fun m a => m.numMin (f a)) start = f a) ∧
      (xs.foldl (fun m a => m.numMin (f a)) start).position ≤ start.position ∧
      ∀ a ∈ xs, (xs.foldl (fun m a => m.numMin (f a)) start).position ≤ (f a).position := by
  induction xs generalizing start with
  | nil => simp
  | cons a xs ih =>
    rw [List.forall_mem_cons] at h
    obtain ⟨hone, hle, hle'⟩ := numMin_cases hstart h.1
    have hnext : (start.numMin (f a)).isFinite = true := by
      rcases hone with hone | hone <;> rw [hone]
      · exact hstart
      · exact h.1
    obtain ⟨hmem, hfirst, hrest⟩ := ih h.2 hnext
    rw [List.foldl_cons]
    refine ⟨?_, hfirst.trans hle, ?_⟩
    · rcases hmem with hmem | ⟨b, hb, hmem⟩
      · rw [hmem]
        exact hone.imp_right fun hone => ⟨a, by simp, hone⟩
      · exact .inr ⟨b, List.mem_cons_of_mem _ hb, hmem⟩
    · rw [List.forall_mem_cons]
      exact ⟨hfirst.trans hle', hrest⟩

theorem infinity_numMin (h : x.isFinite = true) : (infinity false).numMin x = x := by
  have hposition : x.position < (infinity false).position := by
    have hlt : x.magnitude < infinityMagnitude := by simpa [isFinite] using h
    have hinfinity : (infinity false).position = (infinityMagnitude : Int) := by decide
    rw [hinfinity]
    unfold position
    split <;> omega
  have hnumber : (infinity false).isNaN = false := by decide
  rw [numMin, hnumber, isNaN_eq_false h, numLt, isNaN_eq_false h, hnumber, decide_eq_true hposition]
  rfl

/-- The smallest of some finite numbers is the value of one of them. -/
theorem foldl_numMin_infinity {α : Type} {f : α → Scalar} {xs : List α} (hne : xs ≠ [])
    (h : ∀ a ∈ xs, (f a).isFinite = true) :
    ∃ a ∈ xs, xs.foldl (fun m a => m.numMin (f a)) (infinity false) = f a ∧
      ∀ b ∈ xs, (f a).signedUnits ≤ (f b).signedUnits := by
  cases xs with
  | nil => exact absurd rfl hne
  | cons a xs =>
    rw [List.forall_mem_cons] at h
    rw [List.foldl_cons, infinity_numMin h.1]
    obtain ⟨hmem, hfirst, hrest⟩ := foldl_numMin_spec h.2 h.1
    have hall : ∀ b ∈ a :: xs, (xs.foldl (fun m a => m.numMin (f a)) (f a)).signedUnits ≤
        (f b).signedUnits := by
      rw [List.forall_mem_cons]
      exact ⟨signedUnits_le hfirst, fun b hb => signedUnits_le (hrest b hb)⟩
    rcases hmem with hmem | ⟨b, hb, hmem⟩
    · rw [hmem] at hall
      exact ⟨a, by simp, hmem, hall⟩
    · rw [hmem] at hall
      exact ⟨b, List.mem_cons_of_mem _ hb, hmem, hall⟩

/-! ## Natural numbers -/

theorem unitsPerOne_pos : 0 < unitsPerOne := by
  decide +kernel

/-- Adding or taking away a natural number up to a bound needs no rounding. -/
structure AddsExactly (x : Scalar) (bound : Nat) : Prop where
  finite : x.isFinite = true
  sum : ∀ k ≤ bound, (x + ofNat k).Represents (x.signedUnits + k * unitsPerOne)
  difference : ∀ k ≤ bound, (x - ofNat k).Represents (x.signedUnits - k * unitsPerOne)

instance {bound : Nat} : Decidable (x.AddsExactly bound) :=
  decidable_of_iff (x.isFinite = true ∧
      (∀ k ≤ bound, (x + ofNat k).Represents (x.signedUnits + k * unitsPerOne)) ∧
      ∀ k ≤ bound, (x - ofNat k).Represents (x.signedUnits - k * unitsPerOne))
    ⟨fun h => ⟨h.1, h.2.1, h.2.2⟩, fun h => ⟨h.finite, h.sum, h.difference⟩⟩

/-- Numbers that are added to zero without rounding stand for themselves. -/
theorem represents_ofNat {bound k : Nat} (h : (0 : Scalar).AddsExactly bound) (hk : k ≤ bound) :
    (ofNat k).Represents (k * unitsPerOne) := by
  have hsum := h.sum k hk
  rw [represents_zero.units, Int.zero_add] at hsum
  have hsign : ((k * unitsPerOne : Nat) : Int) ≠ 0 →
      false = decide (((k * unitsPerOne : Nat) : Int) < 0) := by
    intro _
    rw [decide_eq_false (Int.not_lt.2 (Int.natCast_nonneg _))]
  have hrounded := Represents.rounded (by exact_mod_cast hsum) hsign
  rw [Int.natAbs_natCast] at hrounded
  exact_mod_cast hrounded

end Scalar

end StabCircuit
