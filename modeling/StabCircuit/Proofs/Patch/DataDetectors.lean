import StabCircuit.Builder.Patch
import StabCircuit.Proofs.Builder.Atomicity
import StabCircuit.Proofs.Builder.Emitted
import StabCircuit.Proofs.Circuit.Settled
import StabCircuit.Proofs.Pauli.Group

/-!
# Detectors over data qubits

Measuring out the data qubits of a patch writes one measurement and then one detector for
every tile in the measured basis.  The detector of a tile refers to the results of the
data qubits that the tile lists and to what its key is bound to in the compared layer.
These are the results of the stabilizer of the tile exactly when no data qubit cancels in
the product of its slots, that is, when each is listed an odd number of times.
-/

namespace StabCircuit

namespace Tile

variable {tile : Tile} {basis : Basis} {q : Coord}

theorem mem_dataSet : q ∈ OrderedSet.toList tile.dataSet ↔ q ∈ tile.dataTerms.map Prod.fst :=
  OrderedSet.mem_keys_ofList

theorem snd_eq_of_basis? (h : tile.basis? = some basis) {term : Coord × Basis}
    (hterm : term ∈ tile.dataTerms) : term.2 = basis := by
  unfold basis? at h
  split at h
  · cases h
  · next q b rest hterms =>
    split at h
    · next hall =>
      obtain rfl : b = basis := Option.some.inj h
      rw [hterms] at hterm
      rcases List.mem_cons.1 hterm with rfl | hrest
      · rfl
      · simpa using List.all_eq_true.1 hall term hrest
    · cases h

/-- The product of a tile of one basis is over the data qubits that are listed an odd number of
times. -/
theorem mem_qubits_product (h : tile.basis? = some basis) :
    q ∈ tile.product.qubits ↔ Odd ((tile.dataTerms.map Prod.fst).count q) := by
  have hcount : ∀ B : Basis, tile.dataTerms.count (q, B) =
      if B = basis then (tile.dataTerms.map Prod.fst).count q else 0 := by
    intro B
    rw [List.count, List.count, List.countP_map]
    split
    · next hB =>
      apply List.countP_congr
      intro term hterm
      have hterm := snd_eq_of_basis? h hterm
      simp [Prod.ext_iff, hterm, hB]
    · next hB =>
      rw [List.countP_eq_zero]
      intro term hterm hsame
      have hsnd := snd_eq_of_basis? h hterm
      rw [beq_iff_eq.1 hsame] at hsnd
      exact hB hsnd
  have hother : ∃ B : Basis, B ≠ basis := by
    cases basis
    · exact ⟨.y, by decide⟩
    · exact ⟨.x, by decide⟩
    · exact ⟨.x, by decide⟩
  rw [product, PauliProduct.mem_qubits_ofTerms, ← Nat.not_even_iff_odd, not_iff_not,
    Nat.even_iff, PauliProduct.CancelOn]
  constructor
  · intro hcancel
    -- Another basis has no terms on the qubit, so the terms of the tile's own basis must be even.
    obtain ⟨B, hB⟩ := hother
    have hsame := hcancel basis B
    rwa [hcount, hcount, if_pos rfl, if_neg hB] at hsame
  · intro heven B C
    rw [hcount, hcount]
    split <;> split <;> simp [heven]

theorem mem_dataSet_of_mem_product (h : q ∈ tile.product.qubits) :
    q ∈ OrderedSet.toList tile.dataSet :=
  mem_dataSet.2 (PauliProduct.mem_of_mem_qubits_ofTerms h)

end Tile

namespace Tracker

/-- The results of qubits in a layer. -/
def resultsOf (t : Tracker) (layer : String) (qubits : List Coord) : Finset Nat :=
  qubits.toFinset.biUnion fun q => t.indexSet (.atLayer (.coord q) layer)

/-- The results of qubits in a layer compared with those that a key is bound to. -/
def comparedResults (t : Tracker) (layer : String) (qubits : List Coord) (key : Key) : Finset Nat :=
  symmDiff (t.resultsOf layer qubits) (t.indexSet key)

theorem parity_append (t : Tracker) (keys keys' : List Key) :
    t.parity (keys ++ keys') = symmDiff (t.parity keys) (t.parity keys') := by
  induction keys with
  | nil => exact (bot_symmDiff _).symm
  | cons key keys ih =>
    have hstep : ∀ keys, t.parity (key :: keys) = symmDiff (t.indexSet key) (t.parity keys) :=
      fun _ => rfl
    rw [List.cons_append, hstep, hstep, ih, symmDiff_assoc]

/-- Each of the qubits has one result in the layer, and different qubits have different ones. -/
structure HasResults (t : Tracker) (layer : String) (qubits : List Coord) : Prop where
  one : ∀ q ∈ qubits, ∃ index, t.find? (.atLayer (.coord q) layer) = some (some [index])
  different : ∀ p ∈ qubits, ∀ q ∈ qubits, p ≠ q →
    Disjoint (t.indexSet (.atLayer (.coord p) layer)) (t.indexSet (.atLayer (.coord q) layer))

variable {t : Tracker} {layer : String} {qubits ps qs : List Coord}

theorem HasResults.mono (h : t.HasResults layer qubits) (hps : ∀ q ∈ ps, q ∈ qubits) :
    t.HasResults layer ps where
  one q hq := h.one q (hps q hq)
  different p hp q hq := h.different p (hps p hp) q (hps q hq)

/-- The keys of different qubits resolve to the results of the qubits. -/
theorem HasResults.parity_keys (h : t.HasResults layer qubits) (hnodup : qubits.Nodup) :
    t.parity (qubits.map fun q => .atLayer (.coord q) layer) = t.resultsOf layer qubits := by
  induction qubits with
  | nil => rfl
  | cons q qubits ih =>
    rw [List.nodup_cons] at hnodup
    have hrest := ih (h.mono fun p hp => List.mem_cons_of_mem _ hp) hnodup.2
    have hapart : Disjoint (t.indexSet (.atLayer (.coord q) layer)) (t.resultsOf layer qubits) := by
      rw [resultsOf, Finset.disjoint_biUnion_right]
      intro p hp
      rw [List.mem_toFinset] at hp
      refine h.different q (by simp) p (List.mem_cons_of_mem _ hp) ?_
      rintro rfl
      exact hnodup.1 hp
    calc t.parity ((q :: qubits).map fun q => .atLayer (.coord q) layer)
        = symmDiff (t.indexSet (.atLayer (.coord q) layer)) (t.resultsOf layer qubits) := by
          rw [← hrest]
          rfl
      _ = t.resultsOf layer (q :: qubits) := by
          rw [hapart.symmDiff_eq_sup, resultsOf, resultsOf, List.toFinset_cons,
            Finset.biUnion_insert]
          rfl

/-- The result of a qubit is among those of others only if the qubit is. -/
theorem HasResults.mem_resultsOf (h : t.HasResults layer qubits) (hps : ∀ q ∈ ps, q ∈ qubits)
    {q : Coord} (hq : q ∈ qubits) {index : Nat}
    (hindex : t.find? (.atLayer (.coord q) layer) = some (some [index])) :
    index ∈ t.resultsOf layer ps ↔ q ∈ ps := by
  have hown : index ∈ t.indexSet (.atLayer (.coord q) layer) := by
    rw [indexSet_of_find? hindex]
    simp
  rw [resultsOf, Finset.mem_biUnion]
  constructor
  · rintro ⟨p, hp, hmem⟩
    rw [List.mem_toFinset] at hp
    by_contra hnot
    have hne : p ≠ q := by
      rintro rfl
      exact hnot hp
    exact Finset.disjoint_left.1 (h.different p (hps p hp) q hq hne) hmem hown
  · intro hmem
    exact ⟨q, List.mem_toFinset.2 hmem, hown⟩

/-- The results tell which qubits were measured for them. -/
theorem HasResults.resultsOf_inj (h : t.HasResults layer qubits) (hps : ∀ q ∈ ps, q ∈ qubits)
    (hqs : ∀ q ∈ qs, q ∈ qubits) :
    t.resultsOf layer ps = t.resultsOf layer qs ↔ ∀ q, q ∈ ps ↔ q ∈ qs := by
  constructor
  · intro hsame q
    by_cases hq : q ∈ qubits
    · obtain ⟨index, hindex⟩ := h.one q hq
      rw [← h.mem_resultsOf hps hq hindex, ← h.mem_resultsOf hqs hq hindex, hsame]
    · exact iff_of_false (fun hp => hq (hps q hp)) fun hp => hq (hqs q hp)
  · intro hsame
    have hset : ps.toFinset = qs.toFinset := by
      ext q
      rw [List.mem_toFinset, List.mem_toFinset, hsame]
    rw [resultsOf, resultsOf, hset]

theorem hasResults_of_extends {t' : Tracker}
    (h : t.Extends t' (Build.sortedKeys qubits .coord layer)
      (Build.sortedKeys qubits .coord layer)) : t'.HasResults layer qubits := by
  have hkey : ∀ q ∈ qubits, Key.atLayer (.coord q) layer ∈ Build.sortedKeys qubits .coord layer :=
    fun q hq => List.mem_map_of_mem (List.mem_mergeSort.2 hq)
  have hfind := fun q hq => Build.find?_of_measured h (hkey q hq)
  refine ⟨fun q hq => ⟨_, hfind q hq⟩, fun p hp q hq hne => ?_⟩
  rw [indexSet_of_find? (hfind p hp), indexSet_of_find? (hfind q hq)]
  simp only [List.toFinset_cons, List.toFinset_nil, insert_empty_eq, Finset.disjoint_singleton]
  intro hsame
  have hkeys := (List.idxOf_inj (hkey p hp)).1 (Nat.add_left_cancel hsame)
  simp at hkeys
  exact hne hkeys

end Tracker

namespace Build

variable {b b' : Builder} {patch : Patch} {tile : Tile} {basis : Basis} {layer compare : String}

/-- The detector of a tile over results. -/
def tileDetector (t : Tracker) (tile : Tile) (results : Finset Nat) : Instruction :=
  { name := Gate.detector.name
    targets := (results.sort.map fun (index : Nat) => (index - t.count : Int)).map .record
    args := [tile.measurementQubit.re, tile.measurementQubit.im, 0] }

/-- The detector tells the results. -/
theorem tileDetector_inj {t : Tracker} {results others : Finset Nat} :
    tileDetector t tile results = tileDetector t tile others ↔ results = others := by
  constructor
  · intro h
    have htargets := congrArg Instruction.targets h
    have hoffsets := List.map_injective_iff.2 (fun _ _ hsame => Target.record.inj hsame) htargets
    have hsorted : results.sort = others.sort :=
      List.map_injective_iff.2 (fun m n hsame => by omega) hoffsets
    ext index
    rw [← Finset.mem_sort (· ≤ ·), hsorted, Finset.mem_sort]
  · rintro rfl
    rfl

/-- A detector at the measurement qubit of a tile refers to what its keys resolve to. -/
theorem gives_placedDetector (ht : b.tracker.IsBounded) {keys : List Key}
    (h : Gives (detector keys (.placed tile.measurementQubit)) b () b') :
    (∀ key ∈ keys, b.tracker.Resolves key) ∧
      { b with circuit :=
          [tileDetector b.tracker tile (b.tracker.parity keys)].foldl Circuit.push b.circuit } =
        b' := by
  obtain ⟨targets, args, i, htargets, hargs, hi, rfl⟩ := detector_spec h
  have hkeys : detectorKeys b.tracker keys (.placed tile.measurementQubit) = keys :=
    List.filter_true keys
  rw [hkeys] at htargets
  obtain ⟨indices, hindices, -⟩ := (Tracker.recordTargets_eq_ok ht).1 htargets
  refine ⟨((Tracker.indices_eq_ok ht).1 hindices).1, ?_⟩
  obtain rfl := Tracker.recordTargets_eq ht htargets
  obtain rfl := Except.ok.inj hargs
  obtain ⟨-, -, rfl⟩ := Instruction.of_make_name hi
  rfl

/-- Detectors are operations of their own. -/
theorem foldl_push_detectors (c : Circuit) {is : List Instruction}
    (h : ∀ i ∈ is, i.name = Gate.detector.name) :
    is.foldl Circuit.push c = c ++ is.map .instruction := by
  induction is generalizing c with
  | nil => simp
  | cons i is ih =>
    rw [List.forall_mem_cons] at h
    have hfuses : ∀ last rest, c.reverse = .instruction last :: rest →
        Circuit.fuses last i = false := by
      intro last _ _
      have hgate : i.gate? = some .detector := Instruction.gate?_of_name h.1
      simp [Circuit.fuses, hgate, Gate.isFusable, Gate.kind]
    have hpush : c.push i = c ++ [.instruction i] := by
      rw [Circuit.push, Circuit.pushReversed_of_not_fuses hfuses, List.reverse_cons,
        List.reverse_reverse]
    rw [List.foldl_cons, ih _ h.2, hpush, List.map_cons, List.append_assoc]
    rfl

/-- The tiles of a patch in one basis. -/
def tilesIn (patch : Patch) (basis : Basis) : List Tile :=
  patch.tiles.filter fun tile => tile.basis? = some basis

/-- The results that the detector of a tile refers to: those of its data qubits in one layer, and
what its key is bound to in another. -/
def dataDetector (t : Tracker) (layer compare : String) (tile : Tile) : Instruction :=
  tileDetector t tile (t.comparedResults layer (OrderedSet.toList tile.dataSet)
    (tileKey tile compare))

/-- The keys of a tile's detector resolve to the results of its data qubits, compared with what its
key is bound to. -/
theorem parity_dataKeys {t : Tracker}
    (h : t.HasResults layer (OrderedSet.toList tile.dataSet)) :
    t.parity ((OrderedSet.toList tile.dataSet).map (fun q => Key.atLayer (.coord q) layer) ++
        [tileKey tile compare]) =
      t.comparedResults layer (OrderedSet.toList tile.dataSet) (tileKey tile compare) := by
  have hkey : t.parity [tileKey tile compare] = t.indexSet (tileKey tile compare) :=
    symmDiff_bot _
  rw [Tracker.parity_append, h.parity_keys tile.dataSet.nodup_keys, hkey]
  rfl

theorem mem_patchData {q : Coord} (htile : tile ∈ patch.tiles)
    (hq : q ∈ OrderedSet.toList tile.dataSet) : q ∈ OrderedSet.toList patch.dataSet :=
  OrderedSet.mem_keys_ofList.2
    (List.mem_flatMap.2 ⟨tile, htile, OrderedSet.mem_keys_ofList.1 hq⟩)

/-- A tile of mixed bases is refused before anything is written. -/
theorem gives_refuseMixed {α : Type} {mixed : α → Bool} {e : α → CircuitError} {items : List α}
    (h : Gives (items.forM fun x => if mixed x then throw (e x) else pure ()) b () b') :
    b = b' := by
  have hnothing := gives_forM_emits (p := fun _ => True) (g := fun _ => [])
    (fun x _ c c' _ _ hone => by
      split at hone
      · exact absurd hone not_gives_throw
      · exact ⟨trivial, (gives_pure.1 hone).2⟩) rfl rfl h
  rw [← hnothing.2, List.flatMap_eq_nil_iff.2 fun _ _ => rfl]
  rfl

/-- The detectors of the tiles in the measured basis, one after another. -/
theorem gives_dataDetectors (hb : b.tracker.IsBounded)
    (hresults : b.tracker.HasResults layer (OrderedSet.toList patch.dataSet))
    (h : Gives (patch.tiles.forM fun tile => do
      if tile.basis? = some basis then
        let data := (OrderedSet.toList tile.dataSet).map fun q => Key.atLayer (.coord q) layer
        detector (data ++ [tileKey tile compare]) (.placed tile.measurementQubit)) b () b') :
    (∀ tile ∈ tilesIn patch basis, b.tracker.Resolves (tileKey tile compare)) ∧
      { b with circuit := b.circuit ++ (tilesIn patch basis).map fun tile =>
          .instruction (dataDetector b.tracker layer compare tile) } = b' := by
  have hall := gives_forM_emits
    (p := fun tile => tile.basis? = some basis → b.tracker.Resolves (tileKey tile compare))
    (g := fun tile => if !decide (tile.basis? = some basis) then []
      else [dataDetector b.tracker layer compare tile])
    (fun tile htile c c' _ ht hone => by
      have hdata := hresults.mono fun q hq => mem_patchData htile hq
      by_cases hbasis : tile.basis? = some basis
      · rw [if_pos hbasis] at hone
        obtain ⟨hresolves, hc'⟩ := gives_placedDetector (by rwa [ht]) hone
        rw [ht] at hresolves
        refine ⟨fun _ => hresolves _ (by simp), ?_⟩
        rw [← hc', ht, parity_dataKeys hdata, decide_eq_true hbasis]
        rfl
      · rw [if_neg hbasis] at hone
        refine ⟨fun h => absurd h hbasis, ?_⟩
        rw [decide_eq_false hbasis]
        exact (gives_pure.1 hone).2) rfl rfl h
  have htiles : (patch.tiles.filter fun tile => !(!decide (tile.basis? = some basis))) =
      tilesIn patch basis := by
    simp only [Bool.not_not, tilesIn]
  constructor
  · intro tile htile
    obtain ⟨hmem, hbasis⟩ := List.mem_filter.1 htile
    exact hall.1 tile hmem (of_decide_eq_true hbasis)
  · rw [← hall.2, Builder.flatMap_unless, htiles, foldl_push_detectors, List.map_map]
    · rfl
    · intro i hi
      obtain ⟨tile, -, rfl⟩ := List.mem_map.1 hi
      rfl

/-- Measuring out the data qubits of a patch writes their measurement and then one detector for each
tile in the measured basis, and none for the others.  The detector refers to the results of the data
qubits that the tile lists, compared with what its key is bound to.  These are the results of the
qubits of its stabilizer, compared with the same, if and only if the tile lists each of its data
qubits an odd number of times. -/
theorem measureData_detectors (hb : b.tracker.IsBounded)
    (h : Gives (measureData patch basis layer compare) b () b') :
    ∃ mid,
      Emits b mid
        (sortedInstruction b.layout (.measure basis) (OrderedSet.toList patch.dataSet))
        (sortedKeys (OrderedSet.toList patch.dataSet) .coord layer)
        (sortedKeys (OrderedSet.toList patch.dataSet) .coord layer) ∧
      { mid with circuit := mid.circuit ++ (tilesIn patch basis).map fun tile =>
          .instruction (dataDetector mid.tracker layer compare tile) } = b' ∧
      mid.tracker.HasResults layer (OrderedSet.toList patch.dataSet) ∧
      ∀ tile ∈ tilesIn patch basis, mid.tracker.Resolves (tileKey tile compare) ∧
        (dataDetector mid.tracker layer compare tile =
            tileDetector mid.tracker tile (mid.tracker.comparedResults layer tile.product.qubits
              (tileKey tile compare)) ↔
          ∀ q ∈ OrderedSet.toList tile.dataSet, Odd ((tile.dataTerms.map Prod.fst).count q)) := by
  obtain ⟨_, checked, hcheck, h⟩ := gives_bind.1 h
  obtain ⟨_, mid, hmeasure, hdetectors⟩ := gives_bind.1 h
  obtain rfl := gives_refuseMixed hcheck
  have hmeasured := emits_measure hmeasure
  have hresults := Tracker.hasResults_of_extends hmeasured.tracker
  obtain ⟨hresolves, hwritten⟩ :=
    gives_dataDetectors (hmeasured.tracker.isBounded hb) hresults hdetectors
  refine ⟨mid, hmeasured, hwritten, hresults, fun tile htile => ⟨hresolves tile htile, ?_⟩⟩
  obtain ⟨hmem, hbasis⟩ := List.mem_filter.1 htile
  have hbasis := of_decide_eq_true hbasis
  rw [dataDetector, tileDetector_inj, Tracker.comparedResults, Tracker.comparedResults,
    symmDiff_left_inj, hresults.resultsOf_inj (fun q hq => mem_patchData hmem hq)
      fun q hq => mem_patchData hmem (Tile.mem_dataSet_of_mem_product hq)]
  constructor
  · intro hsame q hq
    exact (Tile.mem_qubits_product hbasis).1 ((hsame q).1 hq)
  · intro hodd q
    exact ⟨fun hq => (Tile.mem_qubits_product hbasis).2 (hodd q hq),
      Tile.mem_dataSet_of_mem_product⟩

/-! ## Instances -/

/-- A tile with an empty slot. -/
def pairCheck : Tile where
  measurementQubit := .make 0 1
  slots := [⟨.z, some (.make 1 0)⟩, ⟨.z, none⟩, ⟨.z, some (.make 2 0)⟩]

/-- A tile that lists one of its two data qubits twice. -/
def twiceListed : Tile where
  measurementQubit := .make 2 1
  slots := [⟨.z, some (.make 0 0)⟩, ⟨.z, some (.make 0 0)⟩, ⟨.z, some (.make 1 0)⟩]

/-- The two tiles and a tile of another basis. -/
def listedChecks : Patch where
  tiles := [pairCheck, { measurementQubit := .make 1 1, slots := [⟨.x, some (.make 2 0)⟩] },
    twiceListed]

/-- A builder over the qubits of the tiles, after their products were measured. -/
def listedChecksBuilder : Builder :=
  (outcome (measurePatch listedChecks "init" none .product)
    (.forQubits [.make 0 0, .make 1 0, .make 2 0, .make 0 1, .make 1 1, .make 2 1])).2

theorem isBounded_listedChecks : listedChecksBuilder.tracker.IsBounded := by
  have hrecord : Tracker.empty.recordAll (listedChecks.tiles.map fun tile => tileKey tile "init") =
      .ok listedChecksBuilder.tracker := by
    decide +kernel
  exact (Tracker.extends_recordAll hrecord).isBounded Tracker.follows_empty.bounded

theorem sort_listedChecks :
    Coord.sort (OrderedSet.toList listedChecks.dataSet) =
      [.make 0 0, .make 1 0, .make 2 0] := by
  have hdata : OrderedSet.toList listedChecks.dataSet = [.make 0 0, .make 1 0, .make 2 0] := by
    decide +kernel
  rw [hdata]
  exact List.mergeSort_of_pairwise (by decide +kernel)

theorem exists_measureData_listedChecks :
    ∃ b', Gives (measureData listedChecks .z "data" "init") listedChecksBuilder () b' := by
  apply exists_gives
  simp only [measureData, measure, sort_listedChecks]
  decide +kernel

theorem measureData_detectors_listedChecks :
    listedChecksBuilder.tracker.IsBounded ∧
    ∃ b' mid : Builder, Gives (measureData listedChecks .z "data" "init") listedChecksBuilder () b' ∧
      { mid with circuit := mid.circuit ++ [pairCheck, twiceListed].map fun tile =>
          .instruction (dataDetector mid.tracker "data" "init" tile) } = b' ∧
      dataDetector mid.tracker "data" "init" pairCheck =
        tileDetector mid.tracker pairCheck (mid.tracker.comparedResults "data"
          pairCheck.product.qubits (tileKey pairCheck "init")) ∧
      dataDetector mid.tracker "data" "init" twiceListed ≠
        tileDetector mid.tracker twiceListed (mid.tracker.comparedResults "data"
          twiceListed.product.qubits (tileKey twiceListed "init")) := by
  have htiles : tilesIn listedChecks .z = [pairCheck, twiceListed] := by decide +kernel
  obtain ⟨b', hgives⟩ := exists_measureData_listedChecks
  obtain ⟨mid, -, hb', -, hdetectors⟩ := measureData_detectors isBounded_listedChecks hgives
  rw [htiles] at hb' hdetectors
  have hpair := (hdetectors pairCheck (by simp)).2
  have htwice := (hdetectors twiceListed (by simp)).2
  refine ⟨isBounded_listedChecks, b', mid, hgives, hb', ?_, ?_⟩
  · exact hpair.2 (by decide +kernel)
  · rw [ne_eq, htwice]
    decide +kernel

/-- The detector of the tile that lists a qubit twice refers to the results of both its data qubits,
although its product, which was measured before, is over one of them. -/
theorem measureData_twiceListed :
    twiceListed.product.qubits = [.make 1 0] ∧
    ∃ b', Gives (measureData listedChecks .z "data" "init") listedChecksBuilder () b' ∧
      (Circuit.unrolled (fun i => [i]) b'.circuit).getLast? =
        some ⟨"DETECTOR", [.record (-4), .record (-3), .record (-2)], [2, 1, 0]⟩ ∧
      b'.tracker.count = 6 ∧
      b'.tracker.comparedResults "data" twiceListed.product.qubits (tileKey twiceListed "init") =
        {2, 4} := by
  have hlast : ∀ b', Gives (measureData listedChecks .z "data" "init") listedChecksBuilder () b' →
      (Circuit.unrolled (fun i => [i]) b'.circuit).getLast? =
        some ⟨"DETECTOR", [.record (-4), .record (-3), .record (-2)], [2, 1, 0]⟩ ∧
      b'.tracker.count = 6 ∧
      b'.tracker.comparedResults "data" twiceListed.product.qubits (tileKey twiceListed "init") =
        {2, 4} := by
    intro b' h
    obtain rfl : (outcome (measureData listedChecks .z "data" "init") listedChecksBuilder).2 = b' :=
      congrArg Prod.snd h
    simp only [measureData, measure, sort_listedChecks]
    decide +kernel
  obtain ⟨b', hgives⟩ := exists_measureData_listedChecks
  exact ⟨by decide +kernel, b', hgives, hlast b' hgives⟩

end Build

end StabCircuit
