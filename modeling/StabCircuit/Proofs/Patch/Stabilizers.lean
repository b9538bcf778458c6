import StabCircuit.Proofs.Builder.ListingOrder
import StabCircuit.Proofs.Meaning.Conjugation
import StabCircuit.Proofs.Patch.Emission
import StabCircuit.Proofs.Pauli.Group

/-!
# Stabilizers of a patch

Measuring a patch through its measurement qubits measures the same stabilizers as measuring
it with products.  The interactions of all tiles are interleaved by step and basis, but those
of one tile are its occupied slots, and tiles that share a data qubit put the same Pauli on
it.  So X on a measurement qubit, conjugated backwards through all interactions, is its
product with the Paulis of its own tile.
-/

namespace StabCircuit

/-- The measurement qubits of a patch are different and no data qubits, no tile lists a data qubit
twice, and tiles use the same basis on a data qubit that they share. -/
structure Patch.Separated (p : Patch) : Prop where
  nodup : (p.tiles.map Tile.measurementQubit).Nodup
  apart : ∀ t ∈ p.tiles, ∀ u ∈ p.tiles, t.measurementQubit ∉ u.dataTerms.map Prod.fst
  once : ∀ t ∈ p.tiles, (t.dataTerms.map Prod.fst).Nodup
  agree : ∀ t ∈ p.tiles, ∀ u ∈ p.tiles, ∀ term ∈ t.dataTerms, ∀ other ∈ u.dataTerms,
    term.1 = other.1 → term.2 = other.2

/-- The tiles with at least one data qubit. -/
def Patch.occupied (p : Patch) : List Tile := p.tiles.filter fun t => !t.dataTerms.isEmpty

/-- Keys are bound to one result each, in the order in which they are listed. -/
def Tracker.BindsInOrder (t : Tracker) (keys : List Key) : Prop :=
  ∃ indices : List Nat, indices.Pairwise (· < ·) ∧
    keys.map t.find? = indices.map fun index => some (some [index])

namespace Build

/-! ## Indices -/

/-- Qubits of a builder have different indices. -/
theorem eq_of_indexIn_eq {place : Coord → Coord} {qubits : List Coord}
    {layout : OrderedMap Coord Nat} (hlayout : layout = (Builder.forQubitsWith place qubits).layout)
    {p q : Coord} (hp : (layout.get? p).isSome = true) (hq : (layout.get? q).isSome = true)
    (h : indexIn layout p = indexIn layout q) : p = q := by
  have hentry : ∀ r, (layout.get? r).isSome = true →
      (Coord.distinct qubits)[indexIn layout r]? = some r := by
    intro r hr
    obtain ⟨index, hindex⟩ := Option.isSome_iff_exists.1 hr
    rw [indexIn, hindex]
    rw [hlayout] at hindex
    exact Builder.get?_layout_eq_some_iff.1 hindex
  have hsame := hentry p hp
  rw [h, hentry q hq] at hsame
  exact (Option.some.inj hsame).symm

/-! ## Conjugation -/

/-- A layout gives different indices to the qubits that it has, and it has those of a patch. -/
structure Indexes (layout : OrderedMap Coord Nat) (patch : Patch) : Prop where
  injective : ∀ p q, (layout.get? p).isSome = true → (layout.get? q).isSome = true →
    indexIn layout p = indexIn layout q → p = q
  tiles : ∀ t ∈ patch.tiles, (layout.get? t.measurementQubit).isSome = true
  data : ∀ t ∈ patch.tiles, ∀ term ∈ t.dataTerms, (layout.get? term.1).isSome = true

variable {layout : OrderedMap Coord Nat} {patch : Patch} {t u : Tile} {term : Coord × Basis}

theorem Indexes.check_ne_data (h : Indexes layout patch) (hpatch : patch.Separated)
    (ht : t ∈ patch.tiles) (hu : u ∈ patch.tiles) (hterm : term ∈ u.dataTerms) :
    indexIn layout t.measurementQubit ≠ indexIn layout term.1 := by
  intro hsame
  have hqubit := h.injective _ _ (h.tiles t ht) (h.data u hu term hterm) hsame
  apply hpatch.apart t ht u hu
  rw [hqubit]
  exact List.mem_map_of_mem hterm

/-- The couplings of a patch. -/
def patchCouplings (layout : OrderedMap Coord Nat) (patch : Patch) : List Coupling :=
  (patchPairs patch).map fun entry =>
    ⟨indexIn layout entry.2.1, indexIn layout entry.2.2, entry.1⟩

theorem sameEffect_patchActions (layout : OrderedMap Coord Nat) (patch : Patch) :
    Action.SameEffect (patchActions layout patch)
      ((patchCouplings layout patch).map Coupling.action) := by
  rw [patchActions, patchCouplings, List.map_map]
  exact Action.SameEffect.map_congr fun entry _ => sameEffect_pairAction layout entry.1 entry.2

theorem mem_patchCouplings {c : Coupling} (hc : c ∈ patchCouplings layout patch) :
    ∃ t ∈ patch.tiles, ∃ term ∈ t.dataTerms, c.check = indexIn layout t.measurementQubit ∧
      c.data = indexIn layout term.1 ∧ c.basis = term.2 := by
  obtain ⟨entry, hentry, rfl⟩ := List.mem_map.1 hc
  obtain ⟨t, ht, hcheck, hterm⟩ := mem_patchPairs_iff.1 hentry
  exact ⟨t, ht, _, hterm, by rw [hcheck], rfl, rfl⟩

theorem Indexes.compatible (h : Indexes layout patch) (hpatch : patch.Separated) :
    Coupling.Compatible (patchCouplings layout patch) where
  apart c hc d hd := by
    obtain ⟨t, ht, -, -, hcheck, -, -⟩ := mem_patchCouplings hc
    obtain ⟨u, hu, term, hterm, -, hdata, -⟩ := mem_patchCouplings hd
    rw [hcheck, hdata]
    exact h.check_ne_data hpatch ht hu hterm
  agree c hc d hd hsame := by
    obtain ⟨t, ht, term, hterm, -, hdata, hbasis⟩ := mem_patchCouplings hc
    obtain ⟨u, hu, other, hother, -, hdata', hbasis'⟩ := mem_patchCouplings hd
    rw [hdata, hdata'] at hsame
    have hqubit := h.injective _ _ (h.data t ht term hterm) (h.data u hu other hother) hsame
    rw [hbasis, hbasis']
    exact hpatch.agree t ht u hu term hterm other hother hqubit

/-- A measurement qubit controls the Paulis of its tile. -/
theorem Indexes.factorsOf (h : Indexes layout patch) (hpatch : patch.Separated)
    (ht : t ∈ patch.tiles) :
    Coupling.factorsOf (indexIn layout t.measurementQubit) (patchCouplings layout patch) =
      t.dataTerms.map fun term => (indexIn layout term.1, term.2) := by
  have hown : (patchPairs patch).filter (fun entry =>
      indexIn layout entry.2.1 == indexIn layout t.measurementQubit) =
        (patchPairs patch).filter fun entry => entry.2.1 == t.measurementQubit := by
    apply List.filter_congr
    intro entry hentry
    obtain ⟨u, hu, hcheck, -⟩ := mem_patchPairs_iff.1 hentry
    rw [← hcheck, Bool.eq_iff_iff, beq_iff_eq, beq_iff_eq]
    constructor
    · exact h.injective _ _ (h.tiles u hu) (h.tiles t ht)
    · intro hsame
      rw [hsame]
  have hfilter : (patchCouplings layout patch).filter
      (fun c => c.check == indexIn layout t.measurementQubit) =
        ((patchPairs patch).filter fun entry => entry.2.1 == t.measurementQubit).map fun entry =>
          ⟨indexIn layout entry.2.1, indexIn layout entry.2.2, entry.1⟩ := by
    rw [← hown, patchCouplings, List.filter_map]
    rfl
  rw [Coupling.factorsOf, hfilter, ← filter_patchPairs hpatch.nodup ht, List.map_map, List.map_map]
  rfl

theorem Indexes.data_ne_check (h : Indexes layout patch) (hpatch : patch.Separated)
    (ht : t ∈ patch.tiles) :
    ∀ c ∈ patchCouplings layout patch, c.data ≠ indexIn layout t.measurementQubit := by
  intro c hc
  obtain ⟨u, hu, term, hterm, -, hdata, -⟩ := mem_patchCouplings hc
  rw [hdata]
  exact (h.check_ne_data hpatch ht hu hterm).symm

/-- The Paulis of a tile are on different indices. -/
theorem Indexes.nodup_factorsIn (h : Indexes layout patch) (hpatch : patch.Separated)
    (ht : t ∈ patch.tiles) : ((factorsIn layout t.product).map Prod.fst).Nodup := by
  have hperm : t.product.terms.Perm t.dataTerms :=
    PauliProduct.terms_ofTerms_perm (hpatch.once t ht)
  have hqubits : (factorsIn layout t.product).map Prod.fst =
      (t.product.terms.map Prod.fst).map (indexIn layout) := by
    rw [factorsIn, List.map_map, List.map_map]
    rfl
  have hnodup : (t.product.terms.map Prod.fst).Nodup :=
    (hperm.map Prod.fst).nodup_iff.2 (hpatch.once t ht)
  rw [hqubits]
  refine hnodup.map_on fun p hp q hq hsame => ?_
  obtain ⟨term, hterm, rfl⟩ := List.mem_map.1 hp
  obtain ⟨other, hother, rfl⟩ := List.mem_map.1 hq
  exact h.injective _ _ (h.data t ht term (hperm.mem_iff.1 hterm))
    (h.data t ht other (hperm.mem_iff.1 hother)) hsame

/-- Conjugated backwards through the interactions of a patch, X on the measurement qubit of a tile
becomes its product with the product of the tile. -/
theorem conjugatesTo_patchActions (h : Indexes layout patch) (hpatch : patch.Separated)
    (ht : t ∈ patch.tiles) :
    Action.ConjugatesTo (patchActions layout patch) [(indexIn layout t.measurementQubit, .x)]
      ((indexIn layout t.measurementQubit, .x) :: factorsIn layout t.product) := by
  have hfactors : (factorsIn layout t.product).Perm
      (Coupling.factorsOf (indexIn layout t.measurementQubit) (patchCouplings layout patch)) := by
    rw [h.factorsOf hpatch ht]
    exact (PauliProduct.terms_ofTerms_perm (hpatch.once t ht)).map _
  have hcheck := h.data_ne_check hpatch ht
  have hnodup := h.nodup_factorsIn hpatch ht
  have hpulls := Coupling.pullsBack_actions (h.compatible hpatch) hcheck
    ((hfactors.map Prod.fst).nodup_iff.1 hnodup)
  have hall : (((indexIn layout t.measurementQubit, .x) ::
      factorsIn layout t.product).map Prod.fst).Nodup := by
    rw [List.map_cons, List.nodup_cons, (hfactors.map Prod.fst).mem_iff]
    exact ⟨Coupling.notMem_factorsOf hcheck, hnodup⟩
  refine ⟨_, _, multiplyFactors_eq_stringOf (List.nodup_singleton _),
    multiplyFactors_eq_stringOf hall, ?_⟩
  rw [stringOf_perm (hfactors.cons _) hall]
  exact hpulls.of_sameEffect (sameEffect_patchActions layout patch)

theorem indexes_of_knowsPatch {b : Builder} {place : Coord → Coord} {qubits : List Coord}
    (hb : b.layout = (Builder.forQubitsWith place qubits).layout) (h : KnowsPatch b patch) :
    Indexes b.layout patch where
  injective _ _ := eq_of_indexIn_eq hb
  tiles t ht := (h t ht).1
  data t ht := (h t ht).2

/-- The operations of the interactions are controlled Paulis on different qubits. -/
theorem Indexes.controlled (h : Indexes layout patch) (hpatch : patch.Separated) {x : Action}
    (hx : x ∈ patchActions layout patch) :
    ∃ basis a b, a ≠ b ∧ x = .controlled .z basis a b := by
  obtain ⟨entry, hentry, rfl⟩ := List.mem_map.1 hx
  obtain ⟨t, ht, hcheck, hterm⟩ := mem_patchPairs_iff.1 hentry
  have hne := h.check_ne_data hpatch ht ht hterm
  rw [hcheck] at hne
  refine ⟨entry.1, _, _, ?_, rfl⟩
  unfold writtenPair
  split
  · rcases orientPair_cases entry.2 with hsame | hswap
    · rwa [hsame]
    · rw [hswap]
      exact hne.symm
  · exact hne

/-! ## The order of results -/

theorem bindsInOrder_of_extends {t t' : Tracker} {keys measured : List Key}
    (h : t.Extends t' keys measured) (hnodup : measured.Nodup) : t'.BindsInOrder measured := by
  refine ⟨List.range' t.count measured.length, List.pairwise_lt_range', ?_⟩
  apply List.ext_getElem
  · rw [List.length_map, List.length_map, List.length_range']
  · intro k hk hk'
    rw [List.length_map] at hk
    have hmem : measured[k] ∈ measured := List.getElem_mem hk
    rw [List.getElem_map, List.getElem_map, List.getElem_range', Nat.one_mul,
      h.bound _ (h.subset _ hmem), Tracker.placed, if_pos hmem, hnodup.idxOf_getElem k hk]

theorem bindsInOrder_sublist {t : Tracker} {keys keys' : List Key} (h : t.BindsInOrder keys)
    (hsublist : keys'.Sublist keys) : t.BindsInOrder keys' := by
  obtain ⟨indices, hascending, hfind⟩ := h
  have hmap := hsublist.map t.find?
  rw [hfind] at hmap
  obtain ⟨indices', hindices, hfind'⟩ := List.sublist_map_iff.1 hmap
  exact ⟨indices', hascending.sublist hindices, hfind'⟩

/-- Tiles are kept in the canonical order of their measurement qubits. -/
theorem ancillas_make (tiles : List Tile) :
    ancillas (Patch.make tiles) = (Patch.make tiles).tiles.map Tile.measurementQubit := by
  have hsorted : (Patch.make tiles).tiles.Pairwise fun t u =>
      t.measurementQubit.le u.measurementQubit = true :=
    List.pairwise_mergeSort (fun _ _ _ => Std.TransCmp.isLE_trans)
      (fun t u => isLE_total t.measurementQubit u.measurementQubit) tiles
  have hqubits : ((Patch.make tiles).tiles.map Tile.measurementQubit).Pairwise fun p q =>
      p.le q = true := List.pairwise_map.2 hsorted
  rw [ancillas, Coord.sort, List.mergeSort_of_pairwise hqubits]

theorem measuredTiles_eq (hpatch : patch.Separated) : measuredTiles patch = patch.occupied := by
  apply List.filter_congr
  intro t ht
  have hperm : t.product.terms.Perm t.dataTerms :=
    PauliProduct.terms_ofTerms_perm (hpatch.once t ht)
  rw [PauliProduct.isIdentity, OrderedMap.isEmpty, Bool.not_inj_iff, Bool.eq_iff_iff,
    List.isEmpty_iff, List.isEmpty_iff, ← List.length_eq_zero_iff, ← List.length_eq_zero_iff,
    ← hperm.length_eq]
  rfl

/-- Measuring a patch through its measurement qubits measures the same stabilizers as measuring it
with products.  It resets the measurement qubits in X, performs controlled Paulis and measures the
measurement qubits in X; conjugated backwards through the controlled Paulis, X on a measurement
qubit becomes its product with exactly the product of the tile, which the other way measures.  Over
the tiles with data qubits both ways bind the keys in the same order. -/
theorem measurePatch_stabilizers {place : Coord → Coord} {qubits : List Coord} {tiles : List Tile}
    {patch : Patch} {save : String} {compare : Option String} {b b' : Builder}
    (hb : b.layout = (Builder.forQubitsWith place qubits).layout)
    (hmake : patch = .make tiles) (hpatch : patch.Separated)
    (h : Gives (measurePatch patch save compare .ancilla) b () b') :
    (∃ gates : List Action,
      (∀ x ∈ gates, ∃ basis a c, a ≠ c ∧ x = .controlled .z basis a c) ∧
      Performs b b'
        (patch.tiles.map (fun t => .prepare (indexIn b.layout t.measurementQubit) .x) ++ gates ++
          patch.tiles.map fun t => .measure [(indexIn b.layout t.measurementQubit, .x)])
        (patch.tiles.map fun t => tileKey t save) (patch.tiles.map fun t => tileKey t save) ∧
      ∀ t ∈ patch.tiles,
        Action.ConjugatesTo gates [(indexIn b.layout t.measurementQubit, .x)]
          ((indexIn b.layout t.measurementQubit, .x) :: factorsIn b.layout t.product)) ∧
    b'.tracker.BindsInOrder (patch.occupied.map fun t => tileKey t save) ∧
    ∀ (compare' : Option String) (c c' : Builder),
      Gives (measurePatch patch save compare' .product) c () c' →
      Performs c c' (patch.occupied.map fun t => .measure (factorsIn c.layout t.product))
        (patch.tiles.map fun t => tileKey t save) (patch.occupied.map fun t => tileKey t save) ∧
      c'.tracker.BindsInOrder (patch.occupied.map fun t => tileKey t save) := by
  obtain ⟨mid, hmeasure, -⟩ := gives_measurePatch h
  have hindexes := indexes_of_knowsPatch hb (performs_measureWithAncillas hmeasure).1
  have hperforms := performs_measurePatch_ancilla h
  have hancillas : ancillas patch = patch.tiles.map Tile.measurementQubit := by
    rw [hmake, ancillas_make]
  rw [ancillaKeys, hancillas, List.map_map, List.map_map, List.map_map] at hperforms
  have hsublist : (patch.occupied.map fun t => tileKey t save).Sublist
      (patch.tiles.map fun t => tileKey t save) :=
    List.filter_sublist.map _
  refine ⟨⟨patchActions b.layout patch, fun x hx => hindexes.controlled hpatch hx, hperforms,
    fun t ht => conjugatesTo_patchActions hindexes hpatch ht⟩, ?_, ?_⟩
  · exact bindsInOrder_sublist (bindsInOrder_of_extends hperforms.tracker hperforms.tracker.nodup)
      hsublist
  · intro compare' c c' hproduct
    have hproducts := performs_measurePatch_product hproduct
    rw [measuredTiles_eq hpatch] at hproducts
    exact ⟨hproducts,
      bindsInOrder_of_extends hproducts.tracker (hproducts.tracker.nodup.sublist hsublist)⟩

/-! ## An instance -/

/-- Three checks in the order of their measurement qubits: one of mixed bases, a longer one with an
empty slot that shares a data qubit with it and touches it in the same step, and one without data
qubits. -/
def threeChecks : Patch where
  tiles :=
    [{ measurementQubit := .make 0 1, slots := [⟨.x, some (.make 0 0)⟩, ⟨.z, some (.make 1 0)⟩] },
      { measurementQubit := .make 2 1
        slots := [⟨.y, none⟩, ⟨.z, some (.make 1 0)⟩, ⟨.y, some (.make 2 0)⟩] },
      { measurementQubit := .make 3 1, slots := [⟨.x, none⟩] }]

/-- The qubits of the three checks. -/
def threeChecksQubits : List Coord :=
  [.make 0 0, .make 1 0, .make 2 0, .make 0 1, .make 2 1, .make 3 1]

/-- A builder over the qubits of the three checks. -/
def threeChecksBuilder : Builder := .forQubits threeChecksQubits

theorem threeChecks_separated : threeChecks.Separated where
  nodup := by decide +kernel
  apart := by decide +kernel
  once := by decide +kernel
  agree := by decide +kernel

theorem make_threeChecks : threeChecks = .make threeChecks.tiles := by
  have hsorted : threeChecks.tiles.Pairwise fun t u =>
      t.measurementQubit.le u.measurementQubit = true := by
    decide +kernel
  rw [Patch.make, List.mergeSort_of_pairwise hsorted]

theorem measurePatch_stabilizers_threeChecks :
    ∃ b' c', threeChecks = .make threeChecks.tiles ∧ threeChecks.Separated ∧
      Gives (measurePatch threeChecks "now" none .ancilla) threeChecksBuilder () b' ∧
      Gives (measurePatch threeChecks "now" none .product) threeChecksBuilder () c' ∧
      (∃ gates : List Action,
        Performs threeChecksBuilder b'
          (threeChecks.tiles.map
              (fun t => .prepare (indexIn threeChecksBuilder.layout t.measurementQubit) .x) ++
            gates ++
            threeChecks.tiles.map fun t =>
              .measure [(indexIn threeChecksBuilder.layout t.measurementQubit, .x)])
          (threeChecks.tiles.map fun t => tileKey t "now")
          (threeChecks.tiles.map fun t => tileKey t "now") ∧
        ∀ t ∈ threeChecks.tiles,
          Action.ConjugatesTo gates
            [(indexIn threeChecksBuilder.layout t.measurementQubit, .x)]
            ((indexIn threeChecksBuilder.layout t.measurementQubit, .x) ::
              factorsIn threeChecksBuilder.layout t.product)) ∧
      b'.tracker.BindsInOrder (threeChecks.occupied.map fun t => tileKey t "now") ∧
      c'.tracker.BindsInOrder (threeChecks.occupied.map fun t => tileKey t "now") := by
  have hlayout : threeChecksBuilder.layout =
      (Builder.forQubitsWith id threeChecksQubits).layout := rfl
  have hancillas : ancillas threeChecks = threeChecks.tiles.map Tile.measurementQubit := by
    rw [make_threeChecks, ancillas_make]
  have hruns : Succeeds (measureWithAncillas threeChecks "now") threeChecksBuilder := by
    have hkeys : (ancillaKeys threeChecks "now").Nodup ∧
        (∀ key ∈ ancillaKeys threeChecks "now", threeChecksBuilder.tracker.find? key = none) ∧
        threeChecksBuilder.tracker.count + (ancillaKeys threeChecks "now").length <
          Text.longSize := by
      rw [ancillaKeys, hancillas]
      decide +kernel
    exact succeeds_measureWithAncillas (by decide +kernel) hkeys.1 hkeys.2.1 hkeys.2.2
  have hproducts : (outcome (measurePatch threeChecks "now" none .product)
      threeChecksBuilder).1.isOk = true := by
    decide +kernel
  obtain ⟨_, b', hb'⟩ := hruns
  obtain ⟨c', hc'⟩ := exists_gives hproducts
  have hgives : Gives (measurePatch threeChecks "now" none .ancilla) threeChecksBuilder () b' :=
    gives_bind.2 ⟨(), b', hb', gives_pure.2 ⟨rfl, rfl⟩⟩
  obtain ⟨⟨gates, -, hperforms, hgates⟩, hordered, hall⟩ :=
    measurePatch_stabilizers hlayout make_threeChecks threeChecks_separated hgives
  exact ⟨b', c', make_threeChecks, threeChecks_separated, hgives, hc', ⟨gates, hperforms, hgates⟩,
    hordered, (hall none _ c' hc').2⟩

end Build

end StabCircuit
