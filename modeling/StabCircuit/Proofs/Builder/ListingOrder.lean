import Mathlib.Data.List.Dedup
import StabCircuit.Proofs.Builder.Interactions
import StabCircuit.Proofs.Support.OrderedMaps

/-!
# The order in which qubits are listed

Coordinates are linearly ordered, and coordinates that compare as equal have the same
bits.  So a list of qubits has one canonical order, whatever the order in which it was
given: the qubits of a builder are numbered along that order, and a gate or measurement
on qubits depends on the qubits alone.
-/

namespace StabCircuit

namespace Coord

/-! ## Canonical order -/

/-- Coordinates are level exactly when their components have the same bits. -/
theorem compare_eq_iff {a b : Coord} : compare a b = .eq ↔ a.re = b.re ∧ a.im = b.im := by
  constructor
  · intro h
    obtain rfl := Std.LawfulEqOrd.eq_of_compare h
    exact ⟨rfl, rfl⟩
  · rintro ⟨hre, him⟩
    obtain ⟨re, im⟩ := a
    obtain ⟨re', im'⟩ := b
    obtain rfl : re = re' := hre
    obtain rfl : im = im' := him
    exact Std.ReflCmp.compare_self

/-- A list and any rearrangement of it have one canonical order. -/
theorem sort_eq_of_perm {qubits others : List Coord} (h : qubits.Perm others) :
    sort qubits = sort others :=
  Build.mergeSort_isLE_eq_of_perm compare h

theorem mem_distinct {qubits : List Coord} {q : Coord} : q ∈ distinct qubits ↔ q ∈ qubits :=
  OrderedSet.mem_keys_ofList

theorem pairwise_distinct (qubits : List Coord) :
    (distinct qubits).Pairwise fun a b => compare a b = .lt :=
  List.pairwise_map.2 (OrderedSet.ofList qubits).sorted

theorem nodup_distinct (qubits : List Coord) : (distinct qubits).Nodup :=
  OrderedMap.nodup_keys (OrderedSet.ofList qubits)

theorem distinct_eq_of_mem_iff {qubits others : List Coord} (h : ∀ q, q ∈ qubits ↔ q ∈ others) :
    distinct qubits = distinct others := by
  rw [distinct, distinct, OrderedSet.ofList_eq_of_mem_iff h]

theorem length_distinct (qubits : List Coord) :
    (distinct qubits).length = qubits.dedup.length := by
  have hperm : (distinct qubits).Perm qubits.dedup := by
    refine (List.perm_ext_iff_of_nodup (nodup_distinct qubits) qubits.nodup_dedup).2 fun q => ?_
    rw [mem_distinct, List.mem_dedup]
  exact hperm.length_eq

/-- Places in the canonical list compare as the coordinates that stand there. -/
theorem compare_of_getElem?_distinct {qubits : List Coord} {p q : Coord} {i j : Nat}
    (hp : (distinct qubits)[i]? = some p) (hq : (distinct qubits)[j]? = some q) :
    compare i j = compare p q := by
  obtain ⟨hi, rfl⟩ := List.getElem?_eq_some_iff.1 hp
  obtain ⟨hj, rfl⟩ := List.getElem?_eq_some_iff.1 hq
  have hpairwise := List.pairwise_iff_getElem.1 (pairwise_distinct qubits)
  rcases Nat.lt_trichotomy i j with hlt | rfl | hgt
  · rw [hpairwise i j hi hj hlt, Nat.compare_eq_lt.2 hlt]
  · rw [Nat.compare_eq_eq.2 rfl]
    exact Std.ReflCmp.compare_self.symm
  · rw [Std.OrientedCmp.gt_of_lt (hpairwise j i hj hi hgt), Nat.compare_eq_gt.2 hgt]

end Coord

namespace Builder

/-! ## Numbering qubits -/

/-- A layout numbers the different qubits of a list from zero on, in canonical order. -/
structure Numbers (layout : OrderedMap Coord Nat) (qubits : List Coord) : Prop where
  domain : ∀ q, (∃ i, layout.get? q = some i) ↔ q ∈ qubits
  range : ∀ i, (∃ q, layout.get? q = some i) ↔ i < qubits.dedup.length
  order : ∀ p q i j, layout.get? p = some i → layout.get? q = some j → compare i j = compare p q

/-- The index of a qubit is its place in the canonical list. -/
theorem get?_layout_eq_some_iff {place : Coord → Coord} {qubits : List Coord} {q : Coord}
    {i : Nat} :
    (forQubitsWith place qubits).layout.get? q = some i ↔ (Coord.distinct qubits)[i]? = some q := by
  have hnodup : (((Coord.distinct qubits).zipIdx).map Prod.fst).Nodup := by
    rw [List.zipIdx_map_fst]
    exact Coord.nodup_distinct qubits
  have hlayout : (forQubitsWith place qubits).layout =
      OrderedMap.ofList (Coord.distinct qubits).zipIdx := rfl
  rw [hlayout, ← OrderedMap.mem_entries_iff, (OrderedMap.ofList_perm hnodup).mem_iff,
    List.mem_zipIdx_iff_getElem?]

theorem numbers_forQubitsWith (place : Coord → Coord) (qubits : List Coord) :
    Numbers (forQubitsWith place qubits).layout qubits where
  domain q := by
    simp only [get?_layout_eq_some_iff]
    rw [← List.mem_iff_getElem?, Coord.mem_distinct]
  range i := by
    simp only [get?_layout_eq_some_iff]
    rw [← Coord.length_distinct]
    constructor
    · rintro ⟨q, hq⟩
      exact (List.getElem?_eq_some_iff.1 hq).1
    · intro hi
      exact ⟨_, List.getElem?_eq_getElem hi⟩
  order p q i j hp hq :=
    Coord.compare_of_getElem?_distinct (get?_layout_eq_some_iff.1 hp)
      (get?_layout_eq_some_iff.1 hq)

/-- A builder depends on the qubits that are listed alone. -/
theorem forQubitsWith_eq_of_mem_iff (place : Coord → Coord) {qubits others : List Coord}
    (h : ∀ q, q ∈ qubits ↔ q ∈ others) :
    forQubitsWith place qubits = forQubitsWith place others := by
  rw [forQubitsWith, forQubitsWith, Coord.distinct_eq_of_mem_iff h]

end Builder

namespace Build

/-! ## Calls on rearranged qubits -/

theorem gate_eq_of_perm {qubits others : List Coord} (h : qubits.Perm others) (name : String)
    (args : List Scalar) : gate name qubits args = gate name others args := by
  simp only [gate, Coord.sort_eq_of_perm h]

theorem measure_eq_of_perm {qubits others : List Coord} (h : qubits.Perm others) (basis : Basis)
    (keyOf : Coord → Key) (layer : String) :
    measure qubits basis keyOf layer = measure others basis keyOf layer := by
  simp only [measure, Coord.sort_eq_of_perm h]

end Build

/-- Construction does not depend on the order in which qubits are listed.  The comparison of
coordinates is a linear order in which only coordinates of the same bits are level.  Lists of the
same qubits, whatever their order and repetitions, give the same builder; it numbers the different
qubits from zero on in canonical order.  Gates and measurements on rearranged qubits end alike and
leave the same builder. -/
theorem Builder.listingOrder_irrelevant :
    (∀ a b : Coord, compare a b = .eq ↔ a.re = b.re ∧ a.im = b.im) ∧
    (∀ a b : Coord, compare b a = (compare a b).swap) ∧
    (∀ a b c : Coord, (compare a b).isLE = true → (compare b c).isLE = true →
      (compare a c).isLE = true) ∧
    (∀ (place : Coord → Coord) (qubits others : List Coord), (∀ q, q ∈ qubits ↔ q ∈ others) →
      forQubitsWith place qubits = forQubitsWith place others) ∧
    (∀ (place : Coord → Coord) (qubits : List Coord),
      Numbers (forQubitsWith place qubits).layout qubits) ∧
    (∀ (b : Builder) (name : String) (qubits others : List Coord) (args : List Scalar),
      qubits.Perm others →
        Build.outcome (Build.gate name qubits args) b =
          Build.outcome (Build.gate name others args) b) ∧
    ∀ (b : Builder) (qubits others : List Coord) (basis : Basis) (keyOf : Coord → Key)
      (layer : String), qubits.Perm others →
        Build.outcome (Build.measure qubits basis keyOf layer) b =
          Build.outcome (Build.measure others basis keyOf layer) b := by
  refine ⟨fun _ _ => Coord.compare_eq_iff, fun _ _ => Std.OrientedCmp.eq_swap,
    fun _ _ _ => Std.TransCmp.isLE_trans, fun place _ _ h => forQubitsWith_eq_of_mem_iff place h,
    numbers_forQubitsWith, ?_, ?_⟩
  · intro b name qubits others args h
    rw [Build.gate_eq_of_perm h]
  · intro b qubits others basis keyOf layer h
    rw [Build.measure_eq_of_perm h]

/-- Qubits with a fractional and an undefined real part, one of them listed twice. -/
def scatteredQubits : List Coord :=
  [⟨1 / 2, 0⟩, ⟨.nan false, 1⟩, ⟨3, 0⟩, ⟨1 / 2, 0⟩, ⟨0, .nan true⟩]

/-- The same qubits, each listed once. -/
def listedQubits : List Coord := [⟨3, 0⟩, ⟨0, .nan true⟩, ⟨.nan false, 1⟩, ⟨1 / 2, 0⟩]

theorem Builder.listingOrder_irrelevant_scattered :
    (∀ q, q ∈ scatteredQubits ↔ q ∈ listedQubits) ∧
      forQubitsWith id scatteredQubits = forQubitsWith id listedQubits ∧
      (forQubitsWith id scatteredQubits).layout.get? ⟨.nan false, 1⟩ = some 3 ∧
      listedQubits.Perm listedQubits.reverse ∧
      Build.outcome (Build.gate "H" listedQubits []) (forQubitsWith id scatteredQubits) =
        Build.outcome (Build.gate "H" listedQubits.reverse []) (forQubitsWith id scatteredQubits) ∧
      Build.outcome (Build.measure listedQubits .x .coord "end")
          (forQubitsWith id scatteredQubits) =
        Build.outcome (Build.measure listedQubits.reverse .x .coord "end")
          (forQubitsWith id scatteredQubits) := by
  obtain ⟨-, -, -, hbuilder, -, hgate, hmeasure⟩ := listingOrder_irrelevant
  have hmem : ∀ a b c d q : Coord, q ∈ [a, b, c, a, d] ↔ q ∈ [c, d, b, a] := by
    intro a b c d q
    simp only [List.mem_cons, List.not_mem_nil, or_false]
    tauto
  have hsame : ∀ q, q ∈ scatteredQubits ↔ q ∈ listedQubits := hmem _ _ _ _
  have hperm : listedQubits.Perm listedQubits.reverse := (List.reverse_perm _).symm
  exact ⟨hsame, hbuilder id _ _ hsame, by decide +kernel, hperm, hgate _ _ _ _ _ hperm,
    hmeasure _ _ _ _ _ _ hperm⟩

end StabCircuit
