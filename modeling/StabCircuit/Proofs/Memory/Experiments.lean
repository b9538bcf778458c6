import StabCircuit.Proofs.Memory.Rounds

/-!
# Memory experiments compare consecutive rounds

The events of a memory experiment are those of its observables, of a first round, of
rounds that are each compared with the one before, and of its observables again.
Resolved, the detector of a tile refers to the results of the tile in two consecutive
rounds, and an observable is included by its first and by its last measurement.
-/

namespace StabCircuit

/-! ## Results among events -/

namespace RecordEvent

/-- The qubits measured for a result. -/
def measured? : RecordEvent → Option (List Nat)
  | result qubits => some qubits
  | _ => none

/-- The arguments and indices of an annotation by a gate. -/
def annotation? (g : Gate) : RecordEvent → Option (List Scalar × List Int)
  | annotated name args indices => if name = g.name then some (args, indices) else none
  | _ => none

end RecordEvent

/-- The results among the events of an instruction. -/
theorem Instruction.filterMap_events (i : Instruction) :
    (i.events false).filterMap RecordEvent.measured? = i.results := by
  have hpieces : ∀ group, (i.pieceEvents group).filterMap RecordEvent.measured? =
      if i.kind.isMeasurement then [group.filterMap Target.qubit?] else [] := by
    intro group
    rw [pieceEvents, pieceReference, List.filterMap_append]
    split <;> split <;> rfl
  have hannotated : (if i.isAnnotated then
      [RecordEvent.annotated i.name i.args (i.targets.filterMap Target.offset?)] else []).filterMap
        RecordEvent.measured? = [] := by
    split <;> rfl
  rw [events, List.filterMap_append, hannotated, List.nil_append, results]
  split
  · next hcoordinate =>
    have hkind : i.kind.isMeasurement = false := by
      simp only [isCoordinate, Bool.not_false, Bool.and_true, Bool.or_eq_true, beq_iff_eq]
        at hcoordinate
      rcases hcoordinate with h | h <;> rw [kind_of_gate? h] <;> rfl
    rw [hkind]
    rfl
  · rw [List.filterMap_flatMap]
    split
    · next hkind =>
      rw [List.map_eq_flatMap]
      apply List.flatMap_congr
      intro group _
      rw [hpieces, if_pos hkind]
    · next hkind =>
      apply List.flatMap_eq_nil_iff.2
      intro group _
      rw [hpieces, if_neg hkind]

namespace Circuit

mutual

theorem filterMap_unrolled {β γ : Type} (f : Instruction → List β) (g : β → Option γ) :
    (c : List Operation) →
      (unrolled f c).filterMap g = unrolled (fun i => (f i).filterMap g) c
  | [] => rfl
  | op :: rest => by
    rw [unrolled, unrolled, List.filterMap_append, filterMap_unrolledOperation f g op,
      filterMap_unrolled f g rest]

theorem filterMap_unrolledOperation {β γ : Type} (f : Instruction → List β) (g : β → Option γ) :
    (op : Operation) →
      (unrolledOperation f op).filterMap g = unrolledOperation (fun i => (f i).filterMap g) op
  | .instruction i => by rw [unrolledOperation, unrolledOperation]
  | .block count body => by
    rw [unrolledOperation, unrolledOperation, List.filterMap_flatten, List.map_replicate,
      filterMap_unrolled f g body]

end

/-- A circuit has as many results as there are among its events. -/
theorem measurementCount_eq (c : Circuit) :
    measurementCount c =
      ((unrolled (Instruction.events false) c).filterMap RecordEvent.measured?).length := by
  rw [filterMap_unrolled, funext Instruction.filterMap_events, length_unrolled_results]

end Circuit

namespace MemoryExperiment

variable (e : MemoryExperiment)

/-! ## Stages of an experiment -/

/-- The indices of the qubits of an experiment. -/
def layoutFor (observables : List PauliProduct) : OrderedMap Coord Nat :=
  (Builder.forQubits (e.qubits observables)).layout

/-- The events of measuring and including a numbered observable. -/
def observableEvents (layout : OrderedMap Coord Nat) (entry : PauliProduct × Nat) :
    List RecordEvent :=
  if entry.1.isIdentity then []
  else .result (entry.1.terms.map fun term => indexIn layout term.1) ::
    Instruction.annotation .observableInclude [Scalar.ofNat entry.2] [-1]

/-- The events of a round that is compared with the one before. -/
def comparedRound (layout : OrderedMap Coord Nat) : List RecordEvent :=
  (e.roundResults layout).map .result ++ e.roundDetectors

variable {e} {b b' : Builder}

theorem gives_of_build {calls : Build Unit} (h : build b calls = .ok b') :
    Build.Gives calls b () b' := by
  unfold build at h
  split at h
  · next heq =>
    cases h
    exact heq
  · cases h

/-- An observable is measured and included by the result it has just had. -/
theorem grows_measureObservable (hb : b.IsSound) {product : PauliProduct} {key : Key} {k : Nat}
    (h : Build.Gives (do
      Build.measureProduct product key none
      Build.includeObservable [key] k) b () b') :
    b.Grows b' (observableEvents b.layout (product, k)) [key]
      (if product.isIdentity then [] else [key]) := by
  obtain ⟨_, mid, hmeasure, hinclude⟩ := Build.gives_bind.1 h
  have hgrows := hb.grows_measureProduct hmeasure
  have hincluded := (hgrows.isSound hb).grows_includeObservable hinclude
  have hfind := hgrows.tracker.bound key (List.mem_singleton_self key)
  have hcount := hgrows.tracker.count
  rw [observableEvents]
  by_cases hidentity : product.isIdentity = true
  · rw [if_pos hidentity] at hfind
    rw [if_pos hidentity, if_pos hidentity] at hgrows ⊢
    have hnone : mid.tracker.offsets [key] = [] := by
      apply Tracker.offsets_of_unmeasured
      simpa [Tracker.placed] using hfind
    rw [if_pos hnone] at hincluded
    exact hgrows.trans hincluded
  · rw [if_neg hidentity] at hfind hcount
    rw [if_neg hidentity, if_neg hidentity] at hgrows ⊢
    have hlast : mid.tracker.offsets [key] = [-1] := by
      have hposition : mid.tracker.find? key = some (some [b.tracker.count]) := by
        simpa [Tracker.placed] using hfind
      rw [Tracker.offsets_singleton hposition, hcount]
      simp
    rw [hlast, if_neg (List.cons_ne_nil _ _)] at hincluded
    exact hgrows.trans hincluded

theorem grows_measureObservables (hb : b.IsSound) {label : String}
    {observables : List PauliProduct}
    (h : Build.Gives (measureObservables label observables) b () b') :
    ∃ keys measured,
      b.Grows b' (observables.zipIdx.flatMap (observableEvents b.layout)) keys measured := by
  have hstep : ∀ entry ∈ observables.zipIdx, ∀ c c' : Builder, c.IsSound ∧ c.layout = b.layout →
      Build.Gives (do
        Build.measureProduct entry.1 (.name (label ++ toString entry.2)) none
        Build.includeObservable [.name (label ++ toString entry.2)] entry.2) c () c' →
      c.Grows c' (observableEvents b.layout entry) [.name (label ++ toString entry.2)]
          (if entry.1.isIdentity then [] else [.name (label ++ toString entry.2)]) ∧
        c'.IsSound ∧ c'.layout = b.layout := by
    rintro ⟨product, k⟩ _ c c' ⟨hc, hlayout⟩ hgives
    have hgrows := grows_measureObservable hc hgives
    rw [hlayout] at hgrows
    exact ⟨hgrows, hgrows.isSound hc, hgrows.layout.trans hlayout⟩
  exact ⟨_, _, (Builder.grows_forM (fun _ hc => hc.1) hstep ⟨hb, rfl⟩ h).1⟩

/-- A builder has written events, the last of which end a round of a layer. -/
structure Ready (e : MemoryExperiment) (observables : List PauliProduct) (layer : String)
    (b : Builder) (events : List RecordEvent) : Prop where
  sound : b.IsSound
  layout : b.layout = e.layoutFor observables
  events : Circuit.unrolled (Instruction.events false) b.circuit = events
  round : ∃ first, e.Located layer first b.tracker ∧
    b.tracker.count = first + e.roundOrder.length

variable {observables : List PauliProduct} {layer : String} {events : List RecordEvent}

/-- Calls without events and results leave the builder ready. -/
theorem Ready.quiet (h : e.Ready observables layer b events) (hgrows : b.Grows b' [] [] []) :
    e.Ready observables layer b' events := by
  obtain ⟨first, hlocated, hcount⟩ := h.round
  constructor
  · exact hgrows.isSound h.sound
  · exact hgrows.layout.trans h.layout
  · rw [hgrows.events, h.events, List.append_nil]
  · exact ⟨first, hlocated.of_extends hgrows.tracker, hgrows.tracker.count.trans hcount⟩

theorem isSound_forQubits (qubits : List Coord) : (Builder.forQubits qubits).IsSound :=
  ⟨(Builder.inStep_forQubits qubits).sound, (Builder.inStep_forQubits qubits).follows.bounded⟩

theorem events_declarations (indexed : List (Coord × Nat)) {c : Circuit}
    (hc : Circuit.Everywhere Instruction.IsSound c) :
    Circuit.unrolled (Instruction.events false) (indexed.foldl (fun c entry =>
      Circuit.push c (Builder.declaration entry.2 entry.1)) c) =
        Circuit.unrolled (Instruction.events false) c := by
  induction indexed generalizing c with
  | nil => rfl
  | cons entry indexed ih =>
    have hplain := Builder.isPlain_declaration entry.2 entry.1
    rw [List.foldl_cons, ih (Circuit.everywhere_push Instruction.joinable_isSound hc hplain.isSound),
      Circuit.unrolled_push Instruction.additive_events (hc.mono fun _ h => h.1) hplain.isSound.1,
      Instruction.events_of_isPlain hplain, List.append_nil]

/-- The first stage: the observables and a round. -/
theorem ready_start {stage : Stage} (h : e.start = .ok stage) :
    ∃ paired, PairedObservables.pair e.patch e.observablesX e.observablesZ e.ancillas = .ok paired ∧
      stage.observables = paired.observables ∧
      (e.patch.tiles.map Tile.measurementQubit).Nodup ∧
      e.Ready paired.observables "init" stage.builder
        (paired.observables.zipIdx.flatMap (observableEvents (e.layoutFor paired.observables)) ++
          (e.roundResults (e.layoutFor paired.observables)).map .result) := by
  unfold start at h
  obtain ⟨_, -, h⟩ := bind_eq_ok.1 h
  obtain ⟨paired, hpaired, h⟩ := bind_eq_ok.1 h
  obtain ⟨immune, -, h⟩ := bind_eq_ok.1 h
  obtain ⟨data, -, h⟩ := bind_eq_ok.1 h
  obtain ⟨builder, hbuild, h⟩ := bind_eq_ok.1 h
  cases h
  have hsound := isSound_forQubits (e.qubits paired.observables)
  obtain ⟨_, mid, hobservables, hbuild⟩ := Build.gives_bind.1 (gives_of_build hbuild)
  obtain ⟨keys, measured, hfirst⟩ := grows_measureObservables hsound hobservables
  have hmid := hfirst.isSound hsound
  obtain ⟨_, last, hpatch, htick⟩ := Build.gives_bind.1 hbuild
  have hround := grows_measureTiles hmid (gives_measurePatch_none hpatch)
  have hlast := hround.isSound hmid
  refine ⟨paired, hpaired, rfl, nodup_of_tileKeys hround.tracker.nodup, ?_⟩
  refine Ready.quiet ?_ (hlast.grows_tick htick)
  constructor
  · exact hlast
  · exact hround.layout.trans hfirst.layout
  · have hnone := events_declarations (Coord.distinct (e.qubits paired.observables)).zipIdx
      (Circuit.everywhere_nil Instruction.IsSound)
    rw [hround.events, hfirst.events, hfirst.layout]
    have hfresh : Circuit.unrolled (Instruction.events false)
        (Builder.forQubits (e.qubits paired.observables)).circuit = [] := hnone
    rw [hfresh, List.nil_append]
    rfl
  · refine ⟨mid.tracker.count, located_of_extends hround.tracker, ?_⟩
    rw [hround.tracker.count, resultKeys, List.length_map]

/-- The last stage: a round, compared with the one before, and the observables. -/
theorem events_finish {c : Circuit} (h : e.Ready observables layer b events)
    (hfinish : e.finish observables b layer = .ok c) :
    Circuit.unrolled (Instruction.events false) c =
      events ++ e.comparedRound (e.layoutFor observables) ++
        observables.zipIdx.flatMap (observableEvents (e.layoutFor observables)) := by
  obtain ⟨last, hbuild, hfinish⟩ := bind_eq_ok.1 hfinish
  cases hfinish
  obtain ⟨_, mid, hpatch, hobservables⟩ := Build.gives_bind.1 (gives_of_build hbuild)
  obtain ⟨first, hlocated, hcount⟩ := h.round
  have hround := grows_measurePatch_some h.sound hlocated hcount hpatch
  obtain ⟨keys, measured, hlast⟩ :=
    grows_measureObservables (hround.isSound h.sound) hobservables
  rw [hlast.events, hround.events, h.events, hround.layout, h.layout]
  rfl

theorem grows_round (hb : b.IsSound) {first : Nat} (hlocated : e.Located "init" first b.tracker)
    (hcount : b.tracker.count = first + e.roundOrder.length)
    (h : Build.Gives e.round b () b') :
    b.Grows b' (e.comparedRound b.layout) (e.tileKeys "loop") (e.resultKeys "loop") := by
  obtain ⟨_, mid, hpatch, h⟩ := Build.gives_bind.1 h
  have hround := grows_measurePatch_some hb hlocated hcount hpatch
  have hmid := hround.isSound hb
  obtain ⟨_, last, hshift, htick⟩ := Build.gives_bind.1 h
  have hquiet : mid.Grows last [] [] [] := by
    obtain rfl := Build.gives_modify.1 hshift
    refine hmid.grows_push_plain ⟨.shiftCoords, [], rfl, rfl, ?_, rfl⟩
    simp [Instruction.targetFault?, Gate.kind]
  have hall := hround.trans (hquiet.trans ((hquiet.isSound hmid).grows_tick htick))
  simp only [List.append_nil] at hall
  exact hall

/-- A round that has been repeated is the last one in the record. -/
theorem located_of_repeatRecent {t t' : Tracker} {first rounds : Nat}
    (hlocated : e.Located layer first t) (hcount : t.count = first + e.roundOrder.length)
    (h : t.repeatRecent e.roundOrder.length rounds = .ok t') :
    ∃ last, e.Located layer last t' ∧ t'.count = last + e.roundOrder.length := by
  obtain ⟨-, rfl⟩ | ⟨-, -, -, rfl⟩ := Tracker.repeatRecent_cases h
  · exact ⟨first, hlocated, hcount⟩
  · have hstart : t.count - e.roundOrder.length = first := by omega
    rw [hstart]
    refine ⟨first + (rounds - 1) * e.roundOrder.length, ?_, ?_⟩
    · intro tile htile
      rw [Tracker.find?_shiftFrom, hlocated tile htile, resultOf, resultOf]
      split
      · simp only [Option.map_some, List.map_cons, List.map_nil]
        rw [if_pos (Nat.le_add_right _ _), Nat.add_right_comm]
      · rfl
    · have hshifted : (t.shiftFrom first ((rounds - 1) * e.roundOrder.length)).count =
          t.count + (rounds - 1) * e.roundOrder.length := rfl
      rw [hshifted, hcount, Nat.add_right_comm]

theorem filterMap_result (results : List (List Nat)) :
    (results.map RecordEvent.result).filterMap RecordEvent.measured? = results := by
  rw [List.filterMap_map]
  exact List.filterMap_some

theorem filterMap_annotation (g : Gate) (args : List Scalar) (offsets : List Int) :
    (Instruction.annotation g args offsets).filterMap RecordEvent.measured? = [] := by
  rw [Instruction.annotation]
  split <;> rfl

theorem filterMap_roundDetectors : e.roundDetectors.filterMap RecordEvent.measured? = [] := by
  rw [roundDetectors, List.filterMap_flatMap, List.flatMap_eq_nil_iff]
  intro tile _
  exact filterMap_annotation _ _ _

theorem filterMap_comparedRound (layout : OrderedMap Coord Nat) :
    (e.comparedRound layout).filterMap RecordEvent.measured? = e.roundResults layout := by
  rw [comparedRound, List.filterMap_append, filterMap_result, filterMap_roundDetectors,
    List.append_nil]

/-- Noise and a step boundary at the end leave the events of a body. -/
theorem events_closedBody {c body : Circuit} {model : NoiseModel} {immune : OrderedSet Nat}
    {system : Option (OrderedSet Nat)} (hc : Circuit.Everywhere Instruction.IsSound c)
    (h : noisyCircuit c model immune system = .ok body) :
    Circuit.Everywhere Instruction.IsSound (if body.endsWithTick then body else body.tick) ∧
      Circuit.unrolled (Instruction.events false)
        (if body.endsWithTick then body else body.tick) =
          Circuit.unrolled (Instruction.events false) c := by
  obtain ⟨hsound, hevents⟩ := unrolled_noisyCircuit NoiseContext.unnoticed_events hc h
  have htick := Instruction.isPlain_tick
  split
  · exact ⟨hsound, hevents⟩
  · constructor
    · exact Circuit.everywhere_push Instruction.joinable_isSound hsound htick.isSound
    · rw [Circuit.tick, Circuit.unrolled_push Instruction.additive_events
        (hsound.mono fun _ h => h.1) htick.isSound.1, Instruction.events_of_isPlain htick,
        List.append_nil, hevents]

/-- A loop over a body that is a compared round. -/
theorem ready_appendRepeated {t : Tracker} {body : Circuit} {first rounds : Nat}
    (h : e.Ready observables layer b events) {next : String} (ht : t.IsBounded)
    (hlocated : e.Located next first t) (hcount : t.count = first + e.roundOrder.length)
    (hsound : Circuit.Everywhere Instruction.IsSound body)
    (hevents : Circuit.unrolled (Instruction.events false) body =
      e.comparedRound (e.layoutFor observables))
    (hrepeat : Build.Gives (Build.appendRepeated body rounds) { b with tracker := t } () b') :
    e.Ready observables next b'
      (events ++ (List.replicate rounds (e.comparedRound (e.layoutFor observables))).flatten) := by
  obtain ⟨last, hlast, rfl⟩ := Build.appendRepeated_spec hrepeat
  have hlength : Circuit.measurementCount body = e.roundOrder.length := by
    rw [Circuit.measurementCount_eq, hevents, filterMap_comparedRound, length_roundResults]
  rw [hlength] at hlast
  have hwithin : Circuit.Within Instruction.IsSound (.block rounds body) :=
    Circuit.within_block.2 hsound
  constructor
  · constructor
    · exact Circuit.everywhere_pushOperation Instruction.joinable_isSound h.sound.circuit hwithin
    · exact ht.repeatRecent hlast
  · exact h.layout
  · rw [Circuit.pushRepeat, Circuit.unrolled_pushOperation Instruction.additive_events
      (h.sound.circuit.mono fun _ h => h.1) fun i hi => (hwithin i hi).1, h.events,
      Circuit.unrolledOperation, hevents]
  · exact located_of_repeatRecent hlocated hcount hlast

/-- The loop: a round with noise, repeated. -/
theorem ready_loop {loop : Builder} {body : Circuit} {model : NoiseModel}
    {immune : OrderedSet Nat} {system : Option (OrderedSet Nat)} {rounds : Nat}
    (h : e.Ready observables "init" b events)
    (hloop : build b.fork e.round = .ok loop)
    (hbody : noisyCircuit loop.circuit model immune system = .ok body)
    (hrepeat : build { b with tracker := loop.tracker }
      (Build.appendRepeated (if body.endsWithTick then body else body.tick) rounds) = .ok b') :
    e.Ready observables "loop" b'
      (events ++ (List.replicate rounds (e.comparedRound (e.layoutFor observables))).flatten) := by
  obtain ⟨first, hlocated, hcount⟩ := h.round
  -- The body counts back from its own round, so the first round stands for any round before it.
  have hfork : b.fork.IsSound := ⟨Circuit.everywhere_nil _, h.sound.tracker⟩
  have hround := grows_round hfork hlocated hcount (gives_of_build hloop)
  obtain ⟨hsound, hevents⟩ := events_closedBody hround.sound hbody
  have hcompared : Circuit.unrolled (Instruction.events false) loop.circuit =
      e.comparedRound (e.layoutFor observables) := by
    rw [hround.events, ← h.layout]
    rfl
  have hlast : loop.tracker.count = b.tracker.count + e.roundOrder.length := by
    rw [hround.tracker.count, resultKeys, List.length_map]
    rfl
  exact ready_appendRepeated h (hround.isSound hfork).tracker (located_of_extends hround.tracker)
    hlast hsound (hevents.trans hcompared) (gives_of_build hrepeat)

/-- The events of an experiment with a number of rounds after the first. -/
def experimentEvents (e : MemoryExperiment) (observables : List PauliProduct) (rounds : Nat) :
    List RecordEvent :=
  observables.zipIdx.flatMap (observableEvents (e.layoutFor observables)) ++
    (e.roundResults (e.layoutFor observables)).map .result ++
    (List.replicate rounds (e.comparedRound (e.layoutFor observables))).flatten ++
    observables.zipIdx.flatMap (observableEvents (e.layoutFor observables))

theorem events_phenomenological {c : Circuit} (h : e.phenomenological = .ok c) :
    ∃ paired, PairedObservables.pair e.patch e.observablesX e.observablesZ e.ancillas = .ok paired ∧
      (e.patch.tiles.map Tile.measurementQubit).Nodup ∧
      Circuit.unrolled (Instruction.events false) c =
        e.experimentEvents paired.observables (e.rounds + 1) := by
  simp only [phenomenological] at h
  split at h
  · cases h
  obtain ⟨stage, hstage, h⟩ := bind_eq_ok.1 h
  obtain ⟨loop, hloop, h⟩ := bind_eq_ok.1 h
  obtain ⟨body, hbody, h⟩ := bind_eq_ok.1 h
  obtain ⟨b, hrepeat, h⟩ := bind_eq_ok.1 h
  obtain ⟨paired, hpaired, hobservables, hnodup, hready⟩ := ready_start hstage
  have hlooped := ready_loop hready hloop hbody hrepeat
  rw [hobservables] at h
  refine ⟨paired, hpaired, hnodup, ?_⟩
  rw [events_finish hlooped h, experimentEvents, List.replicate_succ', List.flatten_append,
    List.flatten_singleton]
  simp only [List.append_assoc]

theorem events_codeCapacity {c : Circuit} (h : e.codeCapacity = .ok c) :
    ∃ paired, PairedObservables.pair e.patch e.observablesX e.observablesZ e.ancillas = .ok paired ∧
      (e.patch.tiles.map Tile.measurementQubit).Nodup ∧
      Circuit.unrolled (Instruction.events false) c =
        e.experimentEvents paired.observables 1 := by
  simp only [codeCapacity] at h
  split at h
  · cases h
  obtain ⟨stage, hstage, h⟩ := bind_eq_ok.1 h
  obtain ⟨b, hnoise, h⟩ := bind_eq_ok.1 h
  obtain ⟨paired, hpaired, hobservables, hnodup, hready⟩ := ready_start hstage
  obtain ⟨_, mid, hchannels, htick⟩ := Build.gives_bind.1 (gives_of_build hnoise)
  have hquiet := hready.sound.grows_forM_quiet (fun entry _ c c' hc hgate => by
    split at hgate
    · exact hc.grows_appendsPlain (Build.gate_spec hgate)
    · obtain ⟨-, rfl⟩ := Build.gives_pure.1 hgate
      exact hc.grows_refl) hchannels
  have hclosed := (hready.quiet hquiet).quiet ((hquiet.isSound hready.sound).grows_tick htick)
  rw [hobservables] at h
  refine ⟨paired, hpaired, hnodup, ?_⟩
  rw [events_finish hclosed h, experimentEvents, List.replicate_one, List.flatten_singleton]

end MemoryExperiment

end StabCircuit
