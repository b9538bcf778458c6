import Mathlib.Data.List.Nodup
import StabCircuit.Builder.Patch

/-!
# The schedule of a patch

Tiles interact with their data qubits step by step and basis by basis, and within these
pair by pair in canonical order, so that the interactions of different tiles are
interleaved.  What is left of the schedule for one tile are its occupied slots, in order.
-/

namespace StabCircuit

namespace Build

/-! ## Steps -/

/-- The data qubit of a tile in a step, if it interacts under a basis. -/
def stepQubit? (t : Tile) (step : Nat) (basis : Basis) : Option Coord :=
  t.slots[step]?.bind fun slot => if slot.basis = basis then slot.qubit else none

theorem slotPairs_eq (patch : Patch) (step : Nat) (basis : Basis) :
    slotPairs patch step basis = patch.tiles.filterMap fun t =>
      (stepQubit? t step basis).map (Prod.mk t.measurementQubit) := by
  unfold slotPairs
  congr 1
  funext t
  rw [stepQubit?]
  cases t.slots[step]? with
  | none => rfl
  | some slot =>
    rw [Option.bind_some]
    dsimp only
    split
    · rfl
    · rfl

/-- A pair of a step and a basis is an occupied slot of a tile. -/
theorem mem_slotPairs {patch : Patch} {step : Nat} {basis : Basis} {p : Coord × Coord}
    (hp : p ∈ slotPairs patch step basis) :
    ∃ t ∈ patch.tiles, t.measurementQubit = p.1 ∧ (p.2, basis) ∈ t.dataTerms := by
  rw [slotPairs_eq] at hp
  obtain ⟨t, ht, hpair⟩ := List.mem_filterMap.1 hp
  obtain ⟨q, hqubit, rfl⟩ := Option.map_eq_some_iff.1 hpair
  obtain ⟨slot, hslot, hqubit⟩ := Option.bind_eq_some_iff.1 hqubit
  refine ⟨t, ht, rfl, List.mem_filterMap.2 ⟨slot, List.mem_of_getElem? hslot, ?_⟩⟩
  split at hqubit
  · next hbasis =>
    rw [hqubit, ← hbasis]
    rfl
  · cases hqubit

theorem le_patchDepth {patch : Patch} {t : Tile} (ht : t ∈ patch.tiles) :
    t.slots.length ≤ patchDepth patch := by
  have hfold : ∀ (tiles : List Tile) (start : Nat),
      start ≤ tiles.foldl (fun depth tile => max depth tile.slots.length) start ∧
      ∀ t ∈ tiles, t.slots.length ≤
        tiles.foldl (fun depth tile => max depth tile.slots.length) start := by
    intro tiles
    induction tiles with
    | nil => simp
    | cons tile tiles ih =>
      intro start
      obtain ⟨hstart, hrest⟩ := ih (max start tile.slots.length)
      refine ⟨Nat.le_trans (Nat.le_max_left _ _) hstart, List.forall_mem_cons.2 ⟨?_, hrest⟩⟩
      exact Nat.le_trans (Nat.le_max_right _ _) hstart
  exact (hfold patch.tiles 0).2 t ht

theorem filter_tiles {patch : Patch}
    (hnodup : (patch.tiles.map Tile.measurementQubit).Nodup) {t : Tile}
    (ht : t ∈ patch.tiles) :
    (patch.tiles.filter fun u => u.measurementQubit == t.measurementQubit) = [t] := by
  have htiles : patch.tiles.Nodup := hnodup.of_map
  apply List.perm_singleton.1
  rw [List.perm_ext_iff_of_nodup (htiles.filter _) (List.nodup_singleton t)]
  intro u
  rw [List.mem_filter, beq_iff_eq, List.mem_singleton]
  constructor
  · rintro ⟨hu, hsame⟩
    exact List.inj_on_of_nodup_map hnodup hu ht hsame
  · rintro rfl
    exact ⟨ht, rfl⟩

/-- A step has at most one interaction of a tile under a basis. -/
theorem filter_slotPairs {patch : Patch}
    (hnodup : (patch.tiles.map Tile.measurementQubit).Nodup) {t : Tile}
    (ht : t ∈ patch.tiles) (step : Nat) (basis : Basis) :
    ((slotPairs patch step basis).mergeSort pairLe).filter (fun p => p.1 == t.measurementQubit) =
      (stepQubit? t step basis).toList.map (Prod.mk t.measurementQubit) := by
  have hown : (slotPairs patch step basis).filter (fun p => p.1 == t.measurementQubit) =
      (stepQubit? t step basis).toList.map (Prod.mk t.measurementQubit) := by
    have hfilter := @List.filterMap_filter _ _ (fun u => u.measurementQubit == t.measurementQubit)
      (fun u => (stepQubit? u step basis).map (Prod.mk u.measurementQubit)) patch.tiles
    rw [filter_tiles hnodup ht] at hfilter
    rw [slotPairs_eq, List.filter_filterMap]
    refine Eq.trans (List.filterMap_congr fun u _ => ?_) (hfilter.symm.trans ?_)
    · cases stepQubit? u step basis with
      | none => simp
      | some q => simp [Option.filter]
    · cases hqubit : stepQubit? t step basis with
      | none => simp [hqubit]
      | some q => simp [hqubit]
  have hperm := (List.mergeSort_perm (slotPairs patch step basis) pairLe).filter
    fun p => p.1 == t.measurementQubit
  rw [hown] at hperm
  cases hqubit : stepQubit? t step basis with
  | none =>
    rw [hqubit] at hperm
    exact hperm.eq_nil
  | some q =>
    rw [hqubit] at hperm
    exact List.perm_singleton.1 hperm

/-- Over all bases a step holds what its slot holds. -/
theorem flatMap_stepQubit? (t : Tile) (step : Nat) :
    (Basis.all.flatMap fun basis => (stepQubit? t step basis).toList.map fun q => (q, basis)) =
      t.slots[step]?.toList.flatMap fun slot =>
        (slot.qubit.map fun q => (q, slot.basis)).toList := by
  unfold stepQubit?
  cases t.slots[step]? with
  | none => rfl
  | some slot =>
    obtain ⟨basis, qubit⟩ := slot
    cases basis with
    | x | y | z => cases qubit <;> rfl

theorem flatMap_range_getElem? {α β : Type} (f : α → List β) (xs : List α) (n : Nat) :
    ((List.range n).flatMap fun index => xs[index]?.toList.flatMap f) = (xs.take n).flatMap f := by
  induction n with
  | zero => rfl
  | succ n ih =>
    rw [List.range_succ, List.flatMap_append, ih, List.flatMap_singleton, List.take_add_one,
      List.flatMap_append]

/-! ## The interactions of a patch -/

/-- The interactions of a patch in the order in which they are written. -/
def patchPairs (patch : Patch) : List (Basis × (Coord × Coord)) :=
  (List.range (patchDepth patch)).flatMap fun step => Basis.all.flatMap fun basis =>
    ((slotPairs patch step basis).mergeSort pairLe).map (Prod.mk basis)

/-- The interactions of a tile are its occupied slots, in order. -/
theorem filter_patchPairs {patch : Patch}
    (hnodup : (patch.tiles.map Tile.measurementQubit).Nodup) {t : Tile}
    (ht : t ∈ patch.tiles) :
    ((patchPairs patch).filter fun entry => entry.2.1 == t.measurementQubit).map
      (fun entry => (entry.2.2, entry.1)) = t.dataTerms := by
  have hstep : ∀ step basis,
      (((slotPairs patch step basis).mergeSort pairLe).map (Prod.mk basis)).filter
          (fun entry => entry.2.1 == t.measurementQubit) =
        (stepQubit? t step basis).toList.map fun q => (basis, (t.measurementQubit, q)) := by
    intro step basis
    have hcomp : ((fun entry : Basis × (Coord × Coord) => entry.2.1 == t.measurementQubit) ∘
        Prod.mk basis) = fun p => p.1 == t.measurementQubit := rfl
    rw [List.filter_map, hcomp, filter_slotPairs hnodup ht, List.map_map]
    rfl
  rw [patchPairs, List.filter_flatMap, List.map_flatMap]
  calc _ = (List.range (patchDepth patch)).flatMap fun step =>
        Basis.all.flatMap fun basis =>
          (stepQubit? t step basis).toList.map fun q => (q, basis) := by
        apply List.flatMap_congr
        intro step _
        rw [List.filter_flatMap, List.map_flatMap]
        apply List.flatMap_congr
        intro basis _
        rw [hstep, List.map_map]
        rfl
    _ = (t.slots.take (patchDepth patch)).flatMap fun slot =>
          (slot.qubit.map fun q => (q, slot.basis)).toList := by
        rw [← flatMap_range_getElem?]
        apply List.flatMap_congr
        intro step _
        exact flatMap_stepQubit? t step
    _ = t.dataTerms := by
        rw [List.take_of_length_le (le_patchDepth ht), Tile.dataTerms,
          List.filterMap_eq_flatMap_toList]

theorem mem_patchPairs {patch : Patch} {entry : Basis × (Coord × Coord)}
    (h : entry ∈ patchPairs patch) :
    ∃ step ∈ List.range (patchDepth patch), ∃ basis ∈ Basis.all,
      entry.2 ∈ slotPairs patch step basis ∧ entry.1 = basis := by
  obtain ⟨step, hstep, h⟩ := List.mem_flatMap.1 h
  obtain ⟨basis, hbasis, h⟩ := List.mem_flatMap.1 h
  obtain ⟨p, hp, rfl⟩ := List.mem_map.1 h
  exact ⟨step, hstep, basis, hbasis, List.mem_mergeSort.1 hp, rfl⟩

/-- The schedule holds the occupied slots of all tiles. -/
theorem mem_patchPairs_iff {patch : Patch} {entry : Basis × (Coord × Coord)} :
    entry ∈ patchPairs patch ↔
      ∃ t ∈ patch.tiles, t.measurementQubit = entry.2.1 ∧ (entry.2.2, entry.1) ∈ t.dataTerms := by
  constructor
  · intro h
    obtain ⟨step, -, basis, -, hp, rfl⟩ := mem_patchPairs h
    exact mem_slotPairs hp
  · obtain ⟨basis, check, q⟩ := entry
    rintro ⟨t, ht, hcheck, hterm⟩
    obtain ⟨slot, hslot, hqubit⟩ := List.mem_filterMap.1 hterm
    obtain ⟨r, hr, hsame⟩ := Option.map_eq_some_iff.1 hqubit
    obtain ⟨rfl, rfl⟩ := Prod.mk.inj hsame
    obtain ⟨step, hstep, hget⟩ := List.getElem_of_mem hslot
    have hfound : stepQubit? t step slot.basis = some r := by
      rw [stepQubit?, List.getElem?_eq_getElem hstep, hget, Option.bind_some, if_pos rfl, hr]
    have hall : ∀ basis, basis ∈ Basis.all := by
      intro basis
      cases basis <;> simp [Basis.all]
    refine List.mem_flatMap.2 ⟨step, ?_, List.mem_flatMap.2 ⟨slot.basis, hall _, ?_⟩⟩
    · exact List.mem_range.2 (Nat.lt_of_lt_of_le hstep (le_patchDepth ht))
    · apply List.mem_map_of_mem
      rw [List.mem_mergeSort, slotPairs_eq]
      refine List.mem_filterMap.2 ⟨t, ht, ?_⟩
      rw [hfound, hcheck]
      rfl

end Build

end StabCircuit
