import Mathlib.Data.List.Nodup
import StabCircuit.Memory.Observables
import StabCircuit.Proofs.Pauli.Commutation
import StabCircuit.Proofs.Support.Results

/-!
# Paired observables

The checks of pairing say that observables of one kind commute and that an X and a Z
observable commute unless they are partners.  An ancilla that lies outside all
observables adds an anticommuting factor to partners, so that these commute as well;
strangers commute as before exactly when no ancilla serves two pairs.
-/

namespace StabCircuit

namespace PairedObservables

/-! ## What the checks say -/

theorem checkAgainst_eq_ok {what : String} {i j : Nat} {a : PauliProduct}
    {rest : List PauliProduct} :
    checkAgainst what i a j rest = .ok () ↔ ∀ b ∈ rest, a.commutes b = true := by
  induction rest generalizing j with
  | nil => simp [checkAgainst]
  | cons b rest ih =>
    rw [checkAgainst, List.forall_mem_cons]
    split
    · next hcommutes => rw [ih]; exact (and_iff_right hcommutes).symm
    · next hcommutes => simp [hcommutes]

/-- Observables pass the check when any two of them commute. -/
theorem checkCommuting_eq_ok {what : String} {i : Nat} {observables : List PauliProduct} :
    checkCommuting what i observables = .ok () ↔
      observables.Pairwise fun a b => a.commutes b = true := by
  induction observables generalizing i with
  | nil => simp [checkCommuting]
  | cons a rest ih =>
    rw [checkCommuting, bind_eq_ok, List.pairwise_cons]
    constructor
    · rintro ⟨_, hagainst, hrest⟩
      exact ⟨checkAgainst_eq_ok.1 hagainst, ih.1 hrest⟩
    · rintro ⟨hagainst, hrest⟩
      exact ⟨(), checkAgainst_eq_ok.2 hagainst, ih.2 hrest⟩

theorem commutes_of_checkPartners {i j : Nat} {x : PauliProduct} {zs : List PauliProduct}
    (h : checkPartners i x j zs = .ok ()) {k : Nat} {z : PauliProduct} (hz : zs[k]? = some z) :
    x.commutes z = decide (i ≠ j + k) := by
  induction zs generalizing j k with
  | nil => simp at hz
  | cons first rest ih =>
    rw [checkPartners] at h
    split at h
    · cases h
    · next hpartners =>
      split at h
      · cases h
      · next hstrangers =>
        cases k with
        | zero =>
          obtain rfl : first = z := by simpa using hz
          by_cases hsame : i = j
          · simpa [hsame] using hpartners
          · simpa [hsame] using hstrangers
        | succ k =>
          rw [ih h (by simpa using hz)]
          congr 2
          omega

/-- X and Z observables that pass the check commute unless they are partners. -/
theorem commutes_of_checkPairs {i : Nat} {xs zs : List PauliProduct}
    (h : checkPairs zs i xs = .ok ()) {k l : Nat} {x z : PauliProduct} (hx : xs[k]? = some x)
    (hz : zs[l]? = some z) : x.commutes z = decide (i + k ≠ l) := by
  induction xs generalizing i k with
  | nil => simp at hx
  | cons first rest ih =>
    obtain ⟨_, hpartners, hrest⟩ := bind_eq_ok.1 h
    cases k with
    | zero =>
      obtain rfl : first = x := by simpa using hx
      simpa using commutes_of_checkPartners hpartners hz
    | succ k =>
      rw [ih hrest (by simpa using hx)]
      congr 2
      omega

/-! ## Observables with their ancillas -/

/-- What pairing has checked, and what it returns. -/
structure IsPairing (patch : Patch) (xs zs : List PauliProduct) (paired : PairedObservables) :
    Prop where
  xs_commute : xs.Pairwise fun a b => a.commutes b = true
  zs_commute : zs.Pairwise fun a b => a.commutes b = true
  partners : ∀ (k l : Nat) (x z : PauliProduct), xs[k]? = some x → zs[l]? = some z →
    x.commutes z = decide (k ≠ l)
  xs_length : xs.length = paired.ancillas.length
  zs_length : zs.length = paired.ancillas.length
  free : ∀ a ∈ paired.ancillas, a ∉ patch.usedSet.toList
  observables : paired.observables =
    attach .x xs paired.ancillas ++ attach .z zs paired.ancillas

theorem mem_usedSet {patch : Patch} {q : Coord} :
    q ∈ patch.usedSet.toList ↔ q ∈ patch.dataSet.toList ∨ q ∈ patch.measureSet.toList :=
  OrderedSet.mem_keys_insertMany

theorem length_of_chooseAncillas {patch : Patch} {pairs : Nat} {suggested : Option (List Coord)}
    {ancillas : List Coord} (h : chooseAncillas patch pairs suggested = .ok ancillas) :
    ancillas.length = pairs := by
  cases suggested with
  | none =>
    cases h
    simp [defaultAncillas]
  | some given =>
    rw [chooseAncillas] at h
    split at h
    · next hlength =>
      cases h
      exact hlength
    · cases h

theorem free_of_checkFree {patch : Patch} {ancillas : List Coord}
    (h : checkFree patch ancillas = .ok ()) : ∀ a ∈ ancillas, a ∉ patch.usedSet.toList := by
  intro a ha hused
  rw [checkFree] at h
  split at h
  · cases h
  · next hnone =>
    have hfree := List.find?_eq_none.1 hnone a ha
    exact hfree (OrderedMap.contains_iff_mem_keys.2 hused)

/-- Pairing returns commuting observables of one kind as they are, or pairs them all. -/
theorem pair_cases {patch : Patch} {xs zs : List PauliProduct} {suggested : Option (List Coord)}
    {paired : PairedObservables} (h : pair patch xs zs suggested = .ok paired) :
    (paired.ancillas = [] ∧ paired.observables.Pairwise fun a b => a.commutes b = true) ∨
      IsPairing patch xs zs paired := by
  unfold pair at h
  split at h
  · left
    obtain ⟨_, hcommuting, h⟩ := bind_eq_ok.1 h
    cases h
    exact ⟨rfl, checkCommuting_eq_ok.1 hcommuting⟩
  · split at h
    · cases h
    · next hlength =>
      right
      obtain ⟨_, hxs, h⟩ := bind_eq_ok.1 h
      obtain ⟨_, hzs, h⟩ := bind_eq_ok.1 h
      obtain ⟨_, hpairs, h⟩ := bind_eq_ok.1 h
      obtain ⟨ancillas, hancillas, h⟩ := bind_eq_ok.1 h
      obtain ⟨_, hfree, h⟩ := bind_eq_ok.1 h
      cases h
      have hcount := length_of_chooseAncillas hancillas
      rw [not_not] at hlength
      constructor
      · exact checkCommuting_eq_ok.1 hxs
      · exact checkCommuting_eq_ok.1 hzs
      · intro k l x z hx hz
        simpa using commutes_of_checkPairs hpairs hx hz
      · exact hcount.symm
      · exact (hcount.trans hlength).symm
      · exact free_of_checkFree hfree
      · rfl

theorem mem_attach_iff {B : Basis} {products : List PauliProduct} {ancillas : List Coord}
    {p : PauliProduct} :
    p ∈ attach B products ancillas ↔
      ∃ (k : Nat) (x : PauliProduct) (a : Coord),
        products[k]? = some x ∧ ancillas[k]? = some a ∧ x.multiplyTerm a B = p := by
  simp only [attach, List.mem_iff_getElem?, List.getElem?_zipWith_eq_some]
  rfl

theorem commutes_of_pairwise {observables : List PauliProduct}
    (h : observables.Pairwise fun a b => a.commutes b = true) :
    ∀ p ∈ observables, ∀ q ∈ observables, p.commutes q = true := by
  have : Std.Symm fun a b : PauliProduct => a.commutes b = true := by
    constructor
    intro a b hab
    rw [PauliProduct.commutes_comm]
    exact hab
  intro p hp q hq
  exact List.Pairwise.forall_of_forall (fun p _ => PauliProduct.commutes_self p) h hp hq

/-- Observables of one kind commute with their ancillas as they did without. -/
theorem commutes_of_mem_attach {B : Basis} {products : List PauliProduct} {ancillas : List Coord}
    (hcommute : products.Pairwise fun a b => a.commutes b = true)
    (hfree : ∀ a ∈ ancillas, ∀ p ∈ products, a ∉ p.qubits) :
    ∀ p ∈ attach B products ancillas, ∀ q ∈ attach B products ancillas, p.commutes q = true := by
  intro p hp q hq
  obtain ⟨k, x, a, hx, ha, rfl⟩ := mem_attach_iff.1 hp
  obtain ⟨l, y, b, hy, hb, rfl⟩ := mem_attach_iff.1 hq
  have hxmem := List.mem_of_getElem? hx
  have hymem := List.mem_of_getElem? hy
  rw [PauliProduct.commutes_multiplyTerm_multiplyTerm
      (hfree a (List.mem_of_getElem? ha) y hymem) (hfree b (List.mem_of_getElem? hb) x hxmem),
    commutes_of_pairwise hcommute x hxmem y hymem]
  simp [Basis.anticommutes]

variable {patch : Patch} {xs zs : List PauliProduct} {paired : PairedObservables}

/-- An X and a Z observable commute when their ancillas tell whether they are partners. -/
theorem IsPairing.commutes_iff (h : IsPairing patch xs zs paired)
    (hfree : ∀ a ∈ paired.ancillas, ∀ p ∈ xs ++ zs, a ∉ p.qubits) {k l : Nat}
    {x z : PauliProduct} {a b : Coord} (hx : xs[k]? = some x) (hz : zs[l]? = some z)
    (ha : paired.ancillas[k]? = some a) (hb : paired.ancillas[l]? = some b) :
    (x.multiplyTerm a .x).commutes (z.multiplyTerm b .z) = true ↔ (a = b → k = l) := by
  have hxmem : x ∈ xs ++ zs := List.mem_append_left _ (List.mem_of_getElem? hx)
  have hzmem : z ∈ xs ++ zs := List.mem_append_right _ (List.mem_of_getElem? hz)
  rw [PauliProduct.commutes_multiplyTerm_multiplyTerm
      (hfree a (List.mem_of_getElem? ha) z hzmem) (hfree b (List.mem_of_getElem? hb) x hxmem),
    h.partners k l x z hx hz]
  have hclash : Basis.anticommutes .x .z = true := rfl
  by_cases hsame : k = l
  · subst hsame
    obtain rfl : a = b := Option.some.inj (ha.symm.trans hb)
    simp [hclash]
  · simp [hclash, hsame]

/-- X and Z observables commute whatever their places exactly when no ancilla serves two pairs. -/
theorem IsPairing.mixed_commute_iff (h : IsPairing patch xs zs paired)
    (hfree : ∀ a ∈ paired.ancillas, ∀ p ∈ xs ++ zs, a ∉ p.qubits) :
    (∀ p ∈ attach .x xs paired.ancillas, ∀ q ∈ attach .z zs paired.ancillas,
      p.commutes q = true) ↔ paired.ancillas.Nodup := by
  constructor
  · intro hcommute
    rw [List.nodup_iff_getElem?_ne_getElem?]
    intro k l hkl hl hsame
    have hk : k < paired.ancillas.length := hkl.trans hl
    obtain ⟨a, ha⟩ : ∃ a, paired.ancillas[k]? = some a := ⟨_, List.getElem?_eq_getElem hk⟩
    obtain ⟨x, hx⟩ : ∃ x, xs[k]? = some x :=
      ⟨_, List.getElem?_eq_getElem (h.xs_length.symm ▸ hk)⟩
    obtain ⟨z, hz⟩ : ∃ z, zs[l]? = some z :=
      ⟨_, List.getElem?_eq_getElem (h.zs_length.symm ▸ hl)⟩
    have hb : paired.ancillas[l]? = some a := hsame.symm.trans ha
    have hpair := hcommute _ (mem_attach_iff.2 ⟨k, x, a, hx, ha, rfl⟩)
      _ (mem_attach_iff.2 ⟨l, z, a, hz, hb, rfl⟩)
    exact absurd ((h.commutes_iff hfree hx hz ha hb).1 hpair rfl) (Nat.ne_of_lt hkl)
  · intro hnodup p hp q hq
    obtain ⟨k, x, a, hx, ha, rfl⟩ := mem_attach_iff.1 hp
    obtain ⟨l, z, b, hz, hb, rfl⟩ := mem_attach_iff.1 hq
    rw [h.commutes_iff hfree hx hz ha hb]
    rintro rfl
    have hk := (List.getElem?_eq_some_iff.1 ha).1
    exact (List.getElem?_inj hk hnodup).1 (ha.trans hb.symm)

/-- With ancillas outside all observables, paired observables commute exactly when no ancilla
serves two pairs. -/
theorem IsPairing.commute_iff_nodup (h : IsPairing patch xs zs paired)
    (hfree : ∀ a ∈ paired.ancillas, ∀ p ∈ xs ++ zs, a ∉ p.qubits) :
    (∀ p ∈ paired.observables, ∀ q ∈ paired.observables, p.commutes q = true) ↔
      paired.ancillas.Nodup := by
  rw [← h.mixed_commute_iff hfree, h.observables]
  constructor
  · intro hcommute p hp q hq
    exact hcommute p (List.mem_append_left _ hp) q (List.mem_append_right _ hq)
  · intro hmixed p hp q hq
    have hxs := commutes_of_mem_attach (B := .x) h.xs_commute
      fun a ha p hp => hfree a ha p (List.mem_append_left _ hp)
    have hzs := commutes_of_mem_attach (B := .z) h.zs_commute
      fun a ha p hp => hfree a ha p (List.mem_append_right _ hp)
    rcases List.mem_append.1 hp with hp | hp <;> rcases List.mem_append.1 hq with hq | hq
    · exact hxs p hp q hq
    · exact hmixed p hp q hq
    · rw [PauliProduct.commutes_comm]
      exact hmixed q hq p hp
    · exact hzs p hp q hq

/-- Unless an ancilla sits on a qubit that an observable has outside the patch, any two of the
returned observables commute exactly when no ancilla serves two pairs. -/
theorem pair_commutes_iff {patch : Patch} {xs zs : List PauliProduct}
    {suggested : Option (List Coord)} {paired : PairedObservables}
    (h : pair patch xs zs suggested = .ok paired)
    (houtside : ∀ p ∈ xs ++ zs, ∀ q ∈ p.qubits, q ∉ patch.usedSet.toList → q ∉ paired.ancillas) :
    (∀ p ∈ paired.observables, ∀ q ∈ paired.observables, p.commutes q = true) ↔
      paired.ancillas.Nodup := by
  rcases pair_cases h with ⟨hnone, hcommute⟩ | hpairing
  · rw [hnone]
    exact iff_of_true (commutes_of_pairwise hcommute) List.nodup_nil
  · apply hpairing.commute_iff_nodup
    intro a ha p hp hqubit
    exact houtside p hp a hqubit (hpairing.free a ha) ha

/-- A pair of qubits side by side, under one measurement qubit. -/
def pairPatch : Patch :=
  .make [{ measurementQubit := .make 0 1
           slots := [⟨.x, some (.make 0 0)⟩, ⟨.x, some (.make 1 0)⟩] }]

/-- The logical operators of two single qubits. -/
def singles (basis : Basis) : List PauliProduct :=
  [.ofTerms [(.make 0 0, basis)], .ofTerms [(.make 1 0, basis)]]

theorem pair_commutes_iff_singles :
    ∃ paired, pair pairPatch (singles .x) (singles .z) none = .ok paired ∧
      (∀ p ∈ singles .x ++ singles .z, ∀ q ∈ p.qubits, q ∉ pairPatch.usedSet.toList →
        q ∉ paired.ancillas) ∧ paired.ancillas.Nodup ∧
      ∀ p ∈ paired.observables, ∀ q ∈ paired.observables, p.commutes q = true := by
  have hok : ((pair pairPatch (singles .x) (singles .z) none).toOption.any fun paired =>
      decide ((∀ p ∈ singles .x ++ singles .z, ∀ q ∈ p.qubits, q ∉ pairPatch.usedSet.toList →
        q ∉ paired.ancillas) ∧ paired.ancillas.Nodup)) = true := by
    decide +kernel
  cases hpair : pair pairPatch (singles .x) (singles .z) none with
  | error e => simp [hpair, Except.toOption] at hok
  | ok paired =>
    simp only [hpair, Except.toOption, Option.any_some, decide_eq_true_eq] at hok
    exact ⟨paired, rfl, hok.1, hok.2, (pair_commutes_iff hpair hok.1).2 hok.2⟩

/-- An X observable that reaches the row below the patch. -/
def lowX : PauliProduct :=
  .ofTerms [(.make 0 0, .x), (.make 0 (Scalar.ofInt (-1)), .x)]

/-- The default ancilla may sit on a qubit of an observable, where its factor cancels. -/
theorem pair_ancillaOnObservable :
    ¬ ∀ (patch : Patch) (xs zs : List PauliProduct) (suggested : Option (List Coord))
        (paired : PairedObservables), pair patch xs zs suggested = .ok paired →
      ∀ p ∈ paired.observables, ∀ q ∈ paired.observables, p.commutes q = true := by
  intro hall
  have hbad : ((pair pairPatch [lowX] ((singles .z).take 1) none).toOption.any fun paired =>
      paired.observables.any fun p => paired.observables.any fun q => !p.commutes q) = true := by
    decide +kernel
  cases hpair : pair pairPatch [lowX] ((singles .z).take 1) none with
  | error e => simp [hpair, Except.toOption] at hbad
  | ok paired =>
    simp only [hpair, Except.toOption, Option.any_some, List.any_eq_true,
      Bool.not_eq_true'] at hbad
    obtain ⟨p, hp, q, hq, hclash⟩ := hbad
    rw [hall _ _ _ _ paired hpair p hp q hq] at hclash
    cases hclash

end PairedObservables

end StabCircuit
