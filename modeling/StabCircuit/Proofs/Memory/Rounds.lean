import StabCircuit.Memory.Experiment
import StabCircuit.Proofs.Builder.Growth

/-!
# Rounds of a memory experiment

Every round measures the tiles in the same order.  When a round is compared with the
one before, the targets of its detectors go back by one and by two rounds, whatever
came before these: the same instructions serve every iteration of a loop and the
round after it.
-/

namespace StabCircuit

namespace MemoryExperiment

variable (e : MemoryExperiment)

/-! ## What a round writes -/

/-- Whether a tile has a result: a product measurement leaves the identity out. -/
def hasResult (t : Tile) : Bool := e.style == .ancilla || !t.product.isIdentity

/-- The measurement qubits of the tiles with a result, in the order of the results of a round. -/
def roundOrder : List Coord :=
  match e.style with
  | .product => (e.patch.tiles.filter e.hasResult).map Tile.measurementQubit
  | .ancilla => Coord.sort (e.patch.tiles.map Tile.measurementQubit)

/-- The qubits that are measured for the results of a round. -/
def roundResults (layout : OrderedMap Coord Nat) : List (List Nat) :=
  match e.style with
  | .product => (e.patch.tiles.filter e.hasResult).map fun t =>
      t.product.terms.map fun term => indexIn layout term.1
  | .ancilla => e.roundOrder.map fun q => [indexIn layout q]

/-- The result of a tile in the round whose results begin at `first`, if it has one. -/
def resultOf (first : Nat) (t : Tile) : List Nat :=
  if e.hasResult t then [first + e.roundOrder.idxOf t.measurementQubit] else []

/-- The targets of a tile's detector: its results in this round and in the round before. -/
def roundOffsets (t : Tile) : List Int :=
  if e.hasResult t then
    [e.roundOrder.idxOf t.measurementQubit - 2 * e.roundOrder.length,
      e.roundOrder.idxOf t.measurementQubit - e.roundOrder.length]
  else []

/-- The arguments of a tile's detector. -/
def detectorArgs (t : Tile) : List Scalar := [t.measurementQubit.re, t.measurementQubit.im, 0]

/-- The events of the detectors of a round. -/
def roundDetectors : List RecordEvent :=
  e.patch.tiles.flatMap fun t =>
    Instruction.annotation .detector (detectorArgs t) (e.roundOffsets t)

/-- The keys of the tiles in a layer. -/
def tileKeys (layer : String) : List Key := e.patch.tiles.map fun t => Build.tileKey t layer

/-- The keys of the results of a round in a layer. -/
def resultKeys (layer : String) : List Key := e.roundOrder.map fun q => .atLayer (.coord q) layer

theorem length_roundResults (layout : OrderedMap Coord Nat) :
    (e.roundResults layout).length = e.roundOrder.length := by
  unfold roundResults roundOrder
  cases e.style <;> simp

/-- The measurements of a round. -/
def measureTiles (layer : String) : Build Unit :=
  match e.style with
  | .product => e.patch.tiles.forM fun tile =>
      Build.measureProduct tile.product (Build.tileKey tile layer) none
  | .ancilla => Build.measureWithAncillas e.patch layer

/-- The detectors of a round. -/
def compareTiles (layer before : String) : Build Unit :=
  e.patch.tiles.forM fun tile =>
    Build.detector [Build.tileKey tile layer, Build.tileKey tile before]
      (.placed tile.measurementQubit)

variable {e} {b b' : Builder}

theorem gives_measurePatch_none {layer : String}
    (h : Build.Gives (Build.measurePatch e.patch layer none e.style) b () b') :
    Build.Gives (e.measureTiles layer) b () b' := by
  unfold measureTiles
  unfold Build.measurePatch at h
  cases hstyle : e.style with
  | product | ancilla =>
    rw [hstyle] at h
    obtain ⟨_, mid, hmeasure, hpure⟩ := Build.gives_bind.1 h
    obtain ⟨-, rfl⟩ := Build.gives_pure.1 hpure
    exact hmeasure

theorem gives_measurePatch_some {layer before : String}
    (h : Build.Gives (Build.measurePatch e.patch layer (some before) e.style) b () b') :
    ∃ mid, Build.Gives (e.measureTiles layer) b () mid ∧
      Build.Gives (e.compareTiles layer before) mid () b' := by
  unfold measureTiles
  unfold Build.measurePatch at h
  cases hstyle : e.style with
  | product | ancilla =>
    rw [hstyle] at h
    obtain ⟨_, mid, hmeasure, hcompare⟩ := Build.gives_bind.1 h
    exact ⟨mid, hmeasure, hcompare⟩

/-! ## Measurements -/

theorem grows_measureWithAncillas (hb : b.IsSound) {patch : Patch} {layer : String}
    (h : Build.Gives (Build.measureWithAncillas patch layer) b () b') :
    b.Grows b'
      ((Coord.sort (patch.tiles.map Tile.measurementQubit)).map fun q =>
        .result [indexIn b.layout q])
      ((Coord.sort (patch.tiles.map Tile.measurementQubit)).map fun q => .atLayer (.coord q) layer)
      ((Coord.sort (patch.tiles.map Tile.measurementQubit)).map fun q =>
        .atLayer (.coord q) layer) := by
  unfold Build.measureWithAncillas at h
  obtain ⟨_, mid, hreset, h⟩ := Build.gives_bind.1 h
  have hfirst := hb.grows_appendsPlain (Build.gate_spec hreset)
  have hmid := hfirst.isSound hb
  obtain ⟨_, mid', htick, h⟩ := Build.gives_bind.1 h
  have hsecond := hfirst.trans (hmid.grows_tick htick)
  have hmid' := hsecond.isSound hb
  obtain ⟨_, last, hsteps, hmeasure⟩ := Build.gives_bind.1 h
  have hthird := hsecond.trans (hmid'.grows_forM_quiet (fun step _ b₁ b₂ hb₁ hstep => by
    obtain ⟨_, next, hgates, htick⟩ := Build.gives_bind.1 hstep
    have hgrown := hb₁.grows_forM_quiet (fun basis _ c c' hc hgate =>
      hc.grows_appendsPlain (Build.gate2_spec hgate)) hgates
    exact hgrown.trans ((hgrown.isSound hb₁).grows_tick htick)) hsteps)
  have hall := hthird.trans ((hthird.isSound hb).grows_measure hmeasure)
  rw [hthird.layout] at hall
  exact hall

/-- A round of measurements takes in the results of its tiles in order. -/
theorem grows_measureTiles (hb : b.IsSound) {layer : String}
    (h : Build.Gives (e.measureTiles layer) b () b') :
    b.Grows b' ((e.roundResults b.layout).map .result) (e.tileKeys layer) (e.resultKeys layer) := by
  unfold measureTiles at h
  cases hstyle : e.style with
  | product =>
    rw [hstyle] at h
    have hresult : ∀ t, e.hasResult t = !t.product.isIdentity := by
      intro t
      rw [hasResult, hstyle]
      rfl
    have hgrows := (Builder.grows_forM (p := fun c => c.IsSound ∧ c.layout = b.layout)
      (fun _ hc => hc.1) (fun tile _ c c' hc hgives => by
        have hone := hc.1.grows_measureProduct hgives
        rw [hc.2] at hone
        exact ⟨hone, hone.isSound hc.1, hone.layout.trans hc.2⟩) ⟨hb, rfl⟩ h).1
    rw [Builder.flatMap_unless, Builder.flatMap_unless, ← List.map_eq_flatMap] at hgrows
    unfold roundResults resultKeys roundOrder
    rw [hstyle, List.map_map, List.map_map, funext hresult]
    exact hgrows
  | ancilla =>
    rw [hstyle] at h
    have hgrows := grows_measureWithAncillas hb h
    have hperm := (List.mergeSort_perm (e.patch.tiles.map Tile.measurementQubit) Coord.le).map
      fun q => Key.atLayer (.coord q) layer
    rw [List.map_map] at hperm
    have horder : e.roundOrder = Coord.sort (e.patch.tiles.map Tile.measurementQubit) := by
      unfold roundOrder
      rw [hstyle]
    unfold roundResults resultKeys
    rw [hstyle, List.map_map, horder]
    exact ⟨hgrows.layout, hgrows.sound, hgrows.events, hgrows.tracker.of_perm hperm⟩

/-! ## Where the results of a round are -/

/-- The tracker binds the tiles of a layer to their results in the round that begins at `first`. -/
def Located (e : MemoryExperiment) (layer : String) (first : Nat) (t : Tracker) : Prop :=
  ∀ tile ∈ e.patch.tiles,
    t.find? (Build.tileKey tile layer) = some (some (e.resultOf first tile))

theorem nodup_of_tileKeys {layer : String} (h : (e.tileKeys layer).Nodup) :
    (e.patch.tiles.map Tile.measurementQubit).Nodup := by
  have hkeys : e.tileKeys layer = (e.patch.tiles.map Tile.measurementQubit).map fun q =>
      Key.atLayer (.coord q) layer := by
    rw [List.map_map]
    rfl
  rw [hkeys] at h
  exact h.of_map

/-- Measurement qubits are those of one tile, so that exactly the tiles with a result are found
among the results. -/
theorem mem_roundOrder_iff (h : (e.patch.tiles.map Tile.measurementQubit).Nodup) {tile : Tile}
    (htile : tile ∈ e.patch.tiles) :
    tile.measurementQubit ∈ e.roundOrder ↔ e.hasResult tile = true := by
  unfold roundOrder
  cases hstyle : e.style with
  | product =>
    constructor
    · intro hmem
      obtain ⟨other, hother, hsame⟩ := List.mem_map.1 hmem
      rw [List.mem_filter] at hother
      rw [← List.inj_on_of_nodup_map h hother.1 htile hsame]
      exact hother.2
    · intro hresult
      exact List.mem_map_of_mem (List.mem_filter.2 ⟨htile, hresult⟩)
  | ancilla =>
    have hresult : e.hasResult tile = true := by
      rw [hasResult, hstyle]
      rfl
    have hmem := (List.mergeSort_perm (e.patch.tiles.map Tile.measurementQubit) Coord.le).mem_iff.2
      (List.mem_map_of_mem htile)
    exact iff_of_true hmem hresult

theorem idxOf_resultKeys (layer : String) (q : Coord) :
    (e.resultKeys layer).idxOf (.atLayer (.coord q) layer) = e.roundOrder.idxOf q := by
  unfold resultKeys
  induction e.roundOrder with
  | nil => rfl
  | cons other rest ih =>
    by_cases hsame : other = q
    · subst hsame
      simp
    · have hkeys : Key.atLayer (.coord other) layer ≠ .atLayer (.coord q) layer := by
        simpa using hsame
      rw [List.map_cons, List.idxOf_cons_ne _ hkeys, List.idxOf_cons_ne _ hsame, ih]

theorem placed_resultKeys (h : (e.patch.tiles.map Tile.measurementQubit).Nodup) {tile : Tile}
    (htile : tile ∈ e.patch.tiles) (layer : String) (first : Nat) :
    Tracker.placed (e.resultKeys layer) first (Build.tileKey tile layer) =
      e.resultOf first tile := by
  have hmem : Build.tileKey tile layer ∈ e.resultKeys layer ↔ e.hasResult tile = true := by
    rw [← mem_roundOrder_iff h htile, resultKeys, List.mem_map]
    constructor
    · rintro ⟨q, hq, hsame⟩
      obtain rfl : q = tile.measurementQubit := by simpa [Build.tileKey] using hsame
      exact hq
    · intro hq
      exact ⟨tile.measurementQubit, hq, rfl⟩
  rw [Tracker.placed, resultOf, Build.tileKey, idxOf_resultKeys]
  exact if_congr hmem rfl rfl

/-- After a round of measurements its tiles are bound to their results. -/
theorem located_of_extends {t t' : Tracker} {layer : String}
    (h : t.Extends t' (e.tileKeys layer) (e.resultKeys layer)) : e.Located layer t.count t' := by
  intro tile htile
  rw [h.bound _ (List.mem_map_of_mem htile), placed_resultKeys (nodup_of_tileKeys h.nodup) htile]

/-- What comes later leaves the tiles of a layer where they are. -/
theorem Located.of_extends {t t' : Tracker} {layer : String} {first : Nat}
    {keys measured : List Key} (hlocated : e.Located layer first t)
    (h : t.Extends t' keys measured) : e.Located layer first t' := by
  intro tile htile
  have hbound := hlocated tile htile
  rw [h.other _ fun hkey => ?_, hbound]
  rw [h.fresh _ hkey] at hbound
  cases hbound

/-! ## Detectors -/

/-- The last two rounds in the record are those of two layers. -/
structure EndsWith (e : MemoryExperiment) (before layer : String) (t : Tracker) (first : Nat) :
    Prop where
  before : e.Located before first t
  layer : e.Located layer (first + e.roundOrder.length) t
  count : t.count = first + e.roundOrder.length + e.roundOrder.length

theorem EndsWith.of_extends {t t' : Tracker} {before layer : String} {first : Nat}
    (h : e.EndsWith before layer t first) (hextends : t.Extends t' [] []) :
    e.EndsWith before layer t' first :=
  ⟨h.before.of_extends hextends, h.layer.of_extends hextends, hextends.count.trans h.count⟩

/-- The keys of a tile in the last two rounds resolve to targets that do not depend on how many
rounds came before. -/
theorem EndsWith.offsets {t : Tracker} {before layer : String} {first : Nat}
    (h : e.EndsWith before layer t first)
    (hnodup : (e.patch.tiles.map Tile.measurementQubit).Nodup) {tile : Tile}
    (htile : tile ∈ e.patch.tiles) :
    t.offsets [Build.tileKey tile layer, Build.tileKey tile before] = e.roundOffsets tile := by
  have hfind := h.layer tile htile
  have hfind' := h.before tile htile
  rw [resultOf] at hfind hfind'
  rw [roundOffsets]
  by_cases hresult : e.hasResult tile = true
  · have hlt := List.idxOf_lt_length_of_mem ((mem_roundOrder_iff hnodup htile).2 hresult)
    rw [if_pos hresult] at hfind hfind' ⊢
    rw [Tracker.offsets_pair hfind hfind' (by omega), h.count]
    simp only [List.cons.injEq, and_true]
    omega
  · rw [if_neg hresult] at hfind hfind' ⊢
    apply Tracker.offsets_of_unmeasured
    simp [hfind, hfind']

/-- The detectors of a round compare it with the round before, tile by tile. -/
theorem grows_compareTiles (hb : b.IsSound) {before layer : String} {first : Nat}
    (hends : e.EndsWith before layer b.tracker first)
    (hnodup : (e.patch.tiles.map Tile.measurementQubit).Nodup)
    (h : Build.Gives (e.compareTiles layer before) b () b') :
    b.Grows b' e.roundDetectors [] [] := by
  have hstep : ∀ tile ∈ e.patch.tiles, ∀ c c' : Builder,
      c.IsSound ∧ e.EndsWith before layer c.tracker first →
      Build.Gives (Build.detector [Build.tileKey tile layer, Build.tileKey tile before]
        (.placed tile.measurementQubit)) c () c' →
      c.Grows c' (Instruction.annotation .detector (detectorArgs tile) (e.roundOffsets tile)) [] [] ∧
        c'.IsSound ∧ e.EndsWith before layer c'.tracker first := by
    rintro tile htile c c' ⟨hc, hends⟩ hgives
    obtain ⟨args, hargs, hgrows⟩ := hc.grows_detector hgives
    obtain rfl := Except.ok.inj hargs
    have hkeys : Build.detectorKeys c.tracker
        [Build.tileKey tile layer, Build.tileKey tile before] (.placed tile.measurementQubit) =
          [Build.tileKey tile layer, Build.tileKey tile before] := rfl
    rw [hkeys, hends.offsets hnodup htile] at hgrows
    exact ⟨hgrows, hgrows.isSound hc, hends.of_extends hgrows.tracker⟩
  have hgrows := (Builder.grows_forM (fun _ hc => hc.1) hstep ⟨hb, hends⟩ h).1
  have hnil : e.patch.tiles.flatMap (fun _ => ([] : List Key)) = [] := by simp
  rw [hnil] at hgrows
  exact hgrows

/-- A round that is compared with the one before, which has just been taken in. -/
theorem grows_measurePatch_some (hb : b.IsSound) {before layer : String} {first : Nat}
    (hbefore : e.Located before first b.tracker)
    (hcount : b.tracker.count = first + e.roundOrder.length)
    (h : Build.Gives (Build.measurePatch e.patch layer (some before) e.style) b () b') :
    b.Grows b' ((e.roundResults b.layout).map .result ++ e.roundDetectors) (e.tileKeys layer)
      (e.resultKeys layer) := by
  obtain ⟨mid, hmeasure, hcompare⟩ := gives_measurePatch_some h
  have hgrows := grows_measureTiles hb hmeasure
  have hlength : (e.resultKeys layer).length = e.roundOrder.length := List.length_map _
  have hends : e.EndsWith before layer mid.tracker first := by
    constructor
    · exact hbefore.of_extends hgrows.tracker
    · rw [← hcount]
      exact located_of_extends hgrows.tracker
    · rw [hgrows.tracker.count, hlength, hcount]
  have hall := hgrows.trans
    (grows_compareTiles (hgrows.isSound hb) hends (nodup_of_tileKeys hgrows.tracker.nodup) hcompare)
  rwa [List.append_nil, List.append_nil] at hall

end MemoryExperiment

end StabCircuit
