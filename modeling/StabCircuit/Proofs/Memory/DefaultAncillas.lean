import StabCircuit.Proofs.Memory.Pairing
import StabCircuit.Proofs.Scalar.ExactSums

/-!
# Default ancillas

Without suggestions the ancillas of paired observables are placed in a row one step below
the data qubits of the patch, from the smallest real part on.  Where small numbers are
added without rounding, the places of the row are different and lie below all data qubits.
A measurement qubit does not move the row: pairing succeeds exactly when none of the places
is one.
-/

namespace StabCircuit

namespace PairedObservables

/-! ## The checks of pairing -/

theorem checkPartners_eq_ok {i j : Nat} {x : PauliProduct} {zs : List PauliProduct}
    (h : ∀ (k : Nat) (z : PauliProduct), zs[k]? = some z → x.commutes z = decide (i ≠ j + k)) :
    checkPartners i x j zs = .ok () := by
  induction zs generalizing j with
  | nil => rfl
  | cons first rest ih =>
    have hfirst := h 0 first rfl
    have hrest := ih (j := j + 1) fun k z hz => by
      rw [h (k + 1) z hz]
      congr 2
      omega
    rw [checkPartners, hfirst, hrest]
    by_cases hsame : i = j <;> simp [hsame]

theorem checkPairs_eq_ok {i : Nat} {xs zs : List PauliProduct}
    (h : ∀ (k l : Nat) (x z : PauliProduct), xs[k]? = some x → zs[l]? = some z →
      x.commutes z = decide (i + k ≠ l)) : checkPairs zs i xs = .ok () := by
  induction xs generalizing i with
  | nil => rfl
  | cons first rest ih =>
    have hfirst : checkPartners i first 0 zs = .ok () :=
      checkPartners_eq_ok fun l z hz => by
        rw [h 0 l first z rfl hz]
        congr 2
        omega
    have hrest := ih (i := i + 1) fun k l x z hx hz => by
      rw [h (k + 1) l x z hx hz]
      congr 2
      omega
    rw [checkPairs, hfirst, hrest]
    rfl

theorem checkFree_eq_ok {patch : Patch} {ancillas : List Coord} :
    checkFree patch ancillas = .ok () ↔ ∀ a ∈ ancillas, a ∉ patch.usedSet.toList := by
  refine ⟨free_of_checkFree, fun h => ?_⟩
  have hnone : ancillas.find? (fun a => patch.usedSet.contains a) = none := by
    rw [List.find?_eq_none]
    intro a ha hused
    exact h a ha (OrderedMap.contains_iff_mem_keys.1 hused)
  rw [checkFree, hnone]

/-- Observables that can be paired: of one kind they commute, and of different kinds unless they are
partners. -/
structure ArePartners (xs zs : List PauliProduct) : Prop where
  length : xs.length = zs.length
  xs_commute : xs.Pairwise fun a b => a.commutes b = true
  zs_commute : zs.Pairwise fun a b => a.commutes b = true
  partners : ∀ (k : Nat) (hk : k < xs.length) (l : Nat) (hl : l < zs.length),
    xs[k].commutes zs[l] = decide (k ≠ l)

variable {patch : Patch} {xs zs : List PauliProduct}

/-- Partners are paired through the default ancillas exactly when these are free. -/
theorem pair_eq_ok (hne : xs ≠ []) (h : ArePartners xs zs) {paired : PairedObservables} :
    pair patch xs zs none = .ok paired ↔
      (∀ a ∈ defaultAncillas patch xs.length, a ∉ patch.usedSet.toList) ∧
        paired = { observables := attach .x xs (defaultAncillas patch xs.length) ++
                    attach .z zs (defaultAncillas patch xs.length)
                   ancillas := defaultAncillas patch xs.length } := by
  have hsome : (xs.isEmpty || zs.isEmpty) = false := by
    have hzs : zs ≠ [] := by
      rw [← List.length_pos_iff, ← h.length, List.length_pos_iff]
      exact hne
    simp [hne, hzs]
  have hpairs : checkPairs zs 0 xs = .ok () := checkPairs_eq_ok fun k l x z hx hz => by
    obtain ⟨hk, rfl⟩ := List.getElem?_eq_some_iff.1 hx
    obtain ⟨hl, rfl⟩ := List.getElem?_eq_some_iff.1 hz
    rw [h.partners k hk l hl, Nat.zero_add]
  rw [← checkFree_eq_ok]
  unfold pair
  rw [hsome, if_neg Bool.false_ne_true, if_neg (not_not.2 h.length),
    checkCommuting_eq_ok.2 h.xs_commute, checkCommuting_eq_ok.2 h.zs_commute, hpairs]
  constructor
  · intro hok
    obtain ⟨_, -, hok⟩ := bind_eq_ok.1 hok
    obtain ⟨_, -, hok⟩ := bind_eq_ok.1 hok
    obtain ⟨_, -, hok⟩ := bind_eq_ok.1 hok
    obtain ⟨ancillas, hancillas, hok⟩ := bind_eq_ok.1 hok
    obtain rfl := Except.ok.inj hancillas
    obtain ⟨_, hfree, hok⟩ := bind_eq_ok.1 hok
    exact ⟨hfree, (Except.ok.inj hok).symm⟩
  · rintro ⟨hfree, rfl⟩
    have hchosen : chooseAncillas patch xs.length none =
        .ok (defaultAncillas patch xs.length) := rfl
    rw [hchosen]
    exact bind_eq_ok.2 ⟨(), rfl, bind_eq_ok.2 ⟨(), rfl, bind_eq_ok.2 ⟨(), rfl,
      bind_eq_ok.2 ⟨_, rfl, bind_eq_ok.2 ⟨(), hfree, rfl⟩⟩⟩⟩⟩

/-! ## The row of places -/

/-- Small numbers are added to the coordinates of the data qubits, and to zero, without rounding. -/
structure PlacesExactly (patch : Patch) (bound : Nat) : Prop where
  zero : (0 : Scalar).AddsExactly bound
  re : ∀ q ∈ patch.dataSet.toList, q.re.AddsExactly bound
  im : ∀ q ∈ patch.dataSet.toList, q.im.AddsExactly bound

open Scalar

variable {bound : Nat}

/-- The corner lies at the smallest real part and below every data qubit. -/
theorem defaultCorner_spec (h : PlacesExactly patch bound) (hbound : 1 ≤ bound) :
    (∃ x : Scalar, x.AddsExactly bound ∧ (defaultCorner patch).re.Represents x.signedUnits) ∧
      ∃ w : Int, (defaultCorner patch).im.Represents w ∧
        ∀ q ∈ patch.dataSet.toList, w < q.im.signedUnits := by
  by_cases hempty : patch.dataSet.toList = []
  · -- Without data qubits there is no smallest coordinate, and the row is below the origin.
    have hcorner : defaultCorner patch = .make 0 (Scalar.ofInt (-1)) := by
      rw [defaultCorner, hempty]
    have hminus : (Scalar.ofInt (-1)).Represents (Scalar.ofInt (-1)).signedUnits :=
      ⟨by decide +kernel, rfl⟩
    rw [hcorner, hempty]
    refine ⟨⟨0, h.zero, ?_⟩, _, hminus.add_zero, by simp⟩
    rw [represents_zero.units]
    exact represents_zero.add_zero
  · obtain ⟨p, hp, hre, -⟩ := foldl_numMin_infinity hempty fun q hq => (h.re q hq).finite
    obtain ⟨q, hq, him, hlow⟩ := foldl_numMin_infinity hempty fun q hq => (h.im q hq).finite
    have hcorner : defaultCorner patch = .make p.re (q.im - 1) := by
      rw [← hre, ← him, defaultCorner]
      split
      · next hnil => exact absurd hnil hempty
      · rfl
    have hbelow := (h.im q hq).difference 1 hbound
    rw [hcorner]
    refine ⟨⟨p.re, h.re p hp, ?_⟩, _, hbelow.add_zero, fun r hr => ?_⟩
    · exact Represents.add_zero ⟨(h.re p hp).finite, rfl⟩
    · have hle := hlow r hr
      have hpos := unitsPerOne_pos
      omega

/-- The places of the row are one number apart and below all data qubits. -/
theorem defaultAncilla_spec (h : PlacesExactly patch bound) (hbound : 1 ≤ bound) :
    ∃ v w : Int, (∀ q ∈ patch.dataSet.toList, w < q.im.signedUnits) ∧ ∀ k ≤ bound,
      (defaultCorner patch + .make (Scalar.ofNat k) 0).re.Represents (v + k * unitsPerOne) ∧
        (defaultCorner patch + .make (Scalar.ofNat k) 0).im.Represents w := by
  obtain ⟨⟨x, hx, hre⟩, w, him, hbelow⟩ := defaultCorner_spec h hbound
  refine ⟨x.signedUnits, w, hbelow, fun k hk => ⟨?_, ?_⟩⟩
  · exact (hre.add (represents_ofNat h.zero hk).add_zero (hx.sum k hk)).add_zero
  · have hsum := him.add represents_zero.add_zero (by rwa [Int.add_zero])
    rw [Int.add_zero] at hsum
    exact hsum.add_zero

/-- The places of the row are different. -/
theorem nodup_defaultAncillas (h : PlacesExactly patch bound) (hbound : 1 ≤ bound) :
    (defaultAncillas patch bound).Nodup := by
  obtain ⟨v, w, -, hplace⟩ := defaultAncilla_spec h hbound
  refine List.Nodup.map_on (fun j hj k hk hsame => ?_) List.nodup_range
  have hjre := (hplace j (List.mem_range.1 hj).le).1.units
  have hkre := (hplace k (List.mem_range.1 hk).le).1.units
  rw [hsame, hkre] at hjre
  have hunits := Int.add_left_cancel hjre
  have hne : (unitsPerOne : Int) ≠ 0 := by
    exact_mod_cast unitsPerOne_pos.ne'
  exact_mod_cast (Int.eq_of_mul_eq_mul_right hne hunits).symm

/-- The places of the row are below all data qubits. -/
theorem below_defaultAncillas (h : PlacesExactly patch bound) :
    ∀ a ∈ defaultAncillas patch bound, a.im.isFinite = true ∧
      ∀ q ∈ patch.dataSet.toList, a.im.signedUnits < q.im.signedUnits := by
  intro a ha
  obtain ⟨k, hk, rfl⟩ := List.mem_map.1 ha
  rw [List.mem_range] at hk
  obtain ⟨v, w, hbelow, hplace⟩ := defaultAncilla_spec h (Nat.one_le_of_lt hk)
  have him := (hplace k hk.le).2
  refine ⟨him.finite, fun q hq => ?_⟩
  rw [him.units]
  exact hbelow q hq

/-- Without suggestions partners are paired through places in a row below the data qubits.  The
places are different; pairing succeeds exactly when none of them is a measurement qubit, and then its
ancillas are these places and no qubits of the patch.  Nor are they qubits of the observables, as far
as these lie in the patch or not below all data qubits. -/
theorem pair_defaultAncillas (hne : xs ≠ []) (h : ArePartners xs zs)
    (hexact : PlacesExactly patch xs.length) :
    (defaultAncillas patch xs.length).Nodup ∧
      (∀ a ∈ defaultAncillas patch xs.length, ∀ q ∈ patch.dataSet.toList,
        a.im.signedUnits < q.im.signedUnits) ∧
      ((∃ paired, pair patch xs zs none = .ok paired) ↔
        ∀ a ∈ defaultAncillas patch xs.length, a ∉ patch.measureSet.toList) ∧
      ∀ paired, pair patch xs zs none = .ok paired →
        paired.ancillas = defaultAncillas patch xs.length ∧
        (∀ a ∈ paired.ancillas, a ∉ patch.dataSet.toList ∧ a ∉ patch.measureSet.toList) ∧
        ∀ p ∈ xs ++ zs, ∀ q ∈ p.qubits, q ∈ patch.usedSet.toList ∨
          (∃ d ∈ patch.dataSet.toList, d.im.signedUnits ≤ q.im.signedUnits) →
            q ∉ paired.ancillas := by
  have hbelow := fun a ha => (below_defaultAncillas hexact a ha).2
  have hdata : ∀ a ∈ defaultAncillas patch xs.length, a ∉ patch.dataSet.toList :=
    fun a ha hmem => Int.lt_irrefl _ (hbelow a ha a hmem)
  refine ⟨nodup_defaultAncillas hexact (List.length_pos_iff.2 hne), hbelow, ?_, ?_⟩
  · constructor
    · rintro ⟨paired, hpaired⟩ a ha hmeasure
      exact ((pair_eq_ok hne h).1 hpaired).1 a ha (mem_usedSet.2 (.inr hmeasure))
    · intro hfree
      refine ⟨_, (pair_eq_ok hne h).2 ⟨fun a ha hused => ?_, rfl⟩⟩
      exact (mem_usedSet.1 hused).elim (hdata a ha) (hfree a ha)
  · intro paired hpaired
    obtain ⟨hfree, rfl⟩ := (pair_eq_ok hne h).1 hpaired
    refine ⟨rfl, fun a ha => ⟨hdata a ha, fun hmeasure => ?_⟩, fun p _ q _ hq hmem => ?_⟩
    · exact hfree a ha (mem_usedSet.2 (.inr hmeasure))
    · rcases hq with hused | ⟨d, hd, hle⟩
      · exact hfree q hmem hused
      · exact Int.not_lt.2 hle (hbelow q hmem d hd)

theorem arePartners_singles : ArePartners (singles .x) (singles .z) where
  length := rfl
  xs_commute := by decide +kernel
  zs_commute := by decide +kernel
  partners := by decide +kernel

theorem placesExactly_pairPatch : PlacesExactly pairPatch 2 where
  zero := by decide +kernel
  re := by decide +kernel
  im := by decide +kernel

theorem pair_defaultAncillas_singles :
    singles .x ≠ [] ∧ ArePartners (singles .x) (singles .z) ∧
      PlacesExactly pairPatch (singles .x).length ∧
      (∀ a ∈ defaultAncillas pairPatch 2, a ∉ pairPatch.measureSet.toList) ∧
      ∃ paired, pair pairPatch (singles .x) (singles .z) none = .ok paired ∧
        paired.ancillas.Nodup := by
  have hne : singles .x ≠ [] := List.cons_ne_nil _ _
  have hfree : ∀ a ∈ defaultAncillas pairPatch 2, a ∉ pairPatch.measureSet.toList := by
    decide +kernel
  obtain ⟨hnodup, -, hok, hpaired⟩ :=
    pair_defaultAncillas hne arePartners_singles placesExactly_pairPatch
  obtain ⟨paired, h⟩ := hok.2 hfree
  refine ⟨hne, arePartners_singles, placesExactly_pairPatch, hfree, paired, h, ?_⟩
  rw [(hpaired paired h).1]
  exact hnodup

/-- A pair of qubits side by side, measured from below. -/
def belowPatch : Patch :=
  .make [{ measurementQubit := .make 0 (Scalar.ofInt (-1))
           slots := [⟨.x, some (.make 0 0)⟩, ⟨.x, some (.make 1 0)⟩] }]

/-- A measurement qubit below the data qubits may take a place of the row, and pairing fails. -/
theorem pair_measurementQubitBelow :
    ¬ ∀ (patch : Patch) (xs zs : List PauliProduct), xs ≠ [] → ArePartners xs zs →
      PlacesExactly patch xs.length → ∃ paired, pair patch xs zs none = .ok paired := by
  intro hall
  have hpartners : ArePartners ((singles .x).take 1) ((singles .z).take 1) :=
    { length := rfl
      xs_commute := by decide +kernel
      zs_commute := by decide +kernel
      partners := by decide +kernel }
  have hexact : PlacesExactly belowPatch ((singles .x).take 1).length :=
    { zero := by decide +kernel
      re := by decide +kernel
      im := by decide +kernel }
  obtain ⟨paired, hpaired⟩ := hall _ _ _ (by decide) hpartners hexact
  have hfail : (pair belowPatch ((singles .x).take 1) ((singles .z).take 1) none).toOption =
      none := by
    decide +kernel
  rw [hpaired] at hfail
  cases hfail

end PairedObservables

end StabCircuit
