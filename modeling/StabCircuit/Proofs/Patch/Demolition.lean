import StabCircuit.Proofs.Meaning.Feedback
import StabCircuit.Proofs.Patch.Stabilizers

/-!
# Demolition with feedback

Measuring qubits, resetting them and undoing the resets by feedback is, whatever the
results are, only measuring them.  The measurements of a basis are written in canonical
order, and the feedback in the order in which the qubits are listed; each feedback
refers to the result of its own qubit, since keys are bound in the order of the results
and no qubit is measured twice.
-/

namespace StabCircuit

namespace RecordEvent

theorem resolved_results (seen : Nat) (results : List (List Nat)) (rest : List RecordEvent) :
    resolved seen (results.map result ++ rest) =
      results.map result ++ resolved (seen + results.length) rest := by
  induction results generalizing seen with
  | nil => rfl
  | cons qubits results ih =>
    have hstep : resolved seen ((qubits :: results).map result ++ rest) =
        result qubits :: resolved (seen + 1) (results.map result ++ rest) := rfl
    rw [hstep, ih, List.length_cons, Nat.add_assoc, Nat.add_comm 1]
    rfl

theorem resolved_of_isResult_eq_false (seen : Nat) {xs : List RecordEvent}
    (h : ∀ x ∈ xs, x.isResult = false) : resolved seen xs = xs.map (shifted seen) := by
  induction xs with
  | nil => rfl
  | cons x xs ih =>
    rw [List.forall_mem_cons] at h
    rw [resolved, h.1, List.map_cons]
    exact congrArg (x.shifted seen :: ·) (ih h.2)

end RecordEvent

namespace Build

/-! ## Qubits in their bases -/

/-- Qubits with the bases in which they are measured. -/
def inBases (xs ys zs : List Coord) : List (Coord × Basis) :=
  xs.map (·, .x) ++ ys.map (·, .y) ++ zs.map (·, .z)

/-- Qubits with their bases in the order in which they are measured. -/
def sortedInBases (xs ys zs : List Coord) : List (Coord × Basis) :=
  inBases (Coord.sort xs) (Coord.sort ys) (Coord.sort zs)

/-- Qubits with their bases, by their indices. -/
def indexed (layout : OrderedMap Coord Nat) (entries : List (Coord × Basis)) : List (Nat × Basis) :=
  entries.map fun entry => (indexIn layout entry.1, entry.2)

/-- The keys of qubits with their bases. -/
def entryKeys (keyOf : Coord → Key) (layer : String) (entries : List (Coord × Basis)) : List Key :=
  entries.map fun entry => .atLayer (keyOf entry.1) layer

theorem inBases_perm (xs ys zs : List Coord) :
    (inBases xs ys zs).Perm (sortedInBases xs ys zs) := by
  have hsort := fun (qubits : List Coord) (basis : Basis) =>
    ((List.mergeSort_perm qubits Coord.le).map fun q => (q, basis)).symm
  exact ((hsort xs .x).append (hsort ys .y)).append (hsort zs .z)

/-- The instructions of a gate for each basis over the qubits in this basis. -/
def overBases (layout : OrderedMap Coord Nat) (g : Basis → Gate) (xs ys zs : List Coord) :
    List Instruction :=
  sortedInstruction layout (g .x) xs ++ sortedInstruction layout (g .y) ys ++
    sortedInstruction layout (g .z) zs

variable {layout : OrderedMap Coord Nat} {xs ys zs : List Coord}

/-- What holds of the instruction of each basis holds of those of all bases. -/
theorem flatMap_overBases {α : Type} {f : Instruction → List α} {g : Basis → Gate}
    {h : Nat → Basis → α}
    (hf : ∀ basis qubits, (sortedInstruction layout (g basis) qubits).flatMap f =
      (Coord.sort qubits).map fun q => h (indexIn layout q) basis) :
    (overBases layout g xs ys zs).flatMap f =
      (indexed layout (sortedInBases xs ys zs)).map fun factor => h factor.1 factor.2 := by
  rw [overBases, List.flatMap_append, List.flatMap_append, hf, hf, hf, indexed, sortedInBases,
    inBases]
  simp only [List.map_append, List.map_map, Function.comp_def]

theorem actions_measurements :
    (overBases layout Gate.measure xs ys zs).flatMap Instruction.actions =
      Action.measurements (indexed layout (sortedInBases xs ys zs)) :=
  flatMap_overBases (h := fun q basis => Action.measure [(q, basis)]) fun basis _ =>
    actions_sortedInstruction (g := .measure basis) (.inr (.inr (.inl rfl))) fun _ => rfl

theorem actions_resets :
    (overBases layout Gate.reset xs ys zs).flatMap Instruction.actions =
      Action.resets (indexed layout (sortedInBases xs ys zs)) :=
  flatMap_overBases (h := Action.prepare) fun basis _ =>
    actions_sortedInstruction (g := .reset basis) (.inr (.inl rfl)) fun _ => rfl

theorem events_measurements :
    (overBases layout Gate.measure xs ys zs).flatMap (Instruction.events false) =
      ((indexed layout (sortedInBases xs ys zs)).map fun factor => [factor.1]).map .result := by
  rw [List.map_map]
  exact flatMap_overBases (h := fun q _ => RecordEvent.result [q]) fun basis _ =>
    events_sortedInstruction_measure basis

theorem events_resets :
    (overBases layout Gate.reset xs ys zs).flatMap (Instruction.events false) = [] := by
  simp only [overBases, List.flatMap_append, events_sortedInstruction_reset, List.append_nil]

/-! ## Calls -/

variable {b b' : Builder} {keyOf : Coord → Key} {layer : String}

/-- Measures qubits in their bases. -/
def measureInBases (xs ys zs : List Coord) (keyOf : Coord → Key) (layer : String) : Build Unit := do
  measure xs .x keyOf layer
  measure ys .y keyOf layer
  measure zs .z keyOf layer

theorem emits_measureInBases (h : Gives (measureInBases xs ys zs keyOf layer) b () b') :
    Emits b b' (overBases b.layout Gate.measure xs ys zs)
      (entryKeys keyOf layer (sortedInBases xs ys zs))
      (entryKeys keyOf layer (sortedInBases xs ys zs)) := by
  obtain ⟨_, first, hx, h⟩ := gives_bind.1 h
  obtain ⟨_, second, hy, hz⟩ := gives_bind.1 h
  have hxs := emits_measure hx
  have hys := emits_measure hy
  have hzs := emits_measure hz
  rw [hys.layout, hxs.layout] at hzs
  rw [hxs.layout] at hys
  have hall := (hxs.trans hys).trans hzs
  have hkeys : sortedKeys xs keyOf layer ++ sortedKeys ys keyOf layer ++
      sortedKeys zs keyOf layer = entryKeys keyOf layer (sortedInBases xs ys zs) := by
    simp only [sortedKeys, entryKeys, sortedInBases, inBases, List.map_append, List.map_map,
      Function.comp_def]
  rwa [hkeys] at hall

theorem known_of_measureInBases (h : Gives (measureInBases xs ys zs keyOf layer) b () b') :
    ∀ entry ∈ sortedInBases xs ys zs, (b.layout.get? entry.1).isSome = true := by
  obtain ⟨_, first, hx, h⟩ := gives_bind.1 h
  obtain ⟨_, second, hy, hz⟩ := gives_bind.1 h
  have hxs := known_of_measure hx
  have hys := known_of_measure hy
  have hzs := known_of_measure hz
  rw [(emits_measure hy).layout, (emits_measure hx).layout] at hzs
  rw [(emits_measure hx).layout] at hys
  intro entry hentry
  rcases List.mem_append.1 hentry with hentry | hentry
  · rcases List.mem_append.1 hentry with hentry | hentry
    · obtain ⟨q, hq, rfl⟩ := List.mem_map.1 hentry
      exact hxs q hq
    · obtain ⟨q, hq, rfl⟩ := List.mem_map.1 hentry
      exact hys q hq
  · obtain ⟨q, hq, rfl⟩ := List.mem_map.1 hentry
    exact hzs q hq

/-- The resets of qubits in their bases. -/
theorem emits_resetInBases
    (h : Gives (do
      gate (Gate.reset .x).name xs []
      gate (Gate.reset .y).name ys []
      gate (Gate.reset .z).name zs []) b () b') :
    Emits b b' (overBases b.layout Gate.reset xs ys zs) [] [] := by
  obtain ⟨_, first, hx, h⟩ := gives_bind.1 h
  obtain ⟨_, second, hy, hz⟩ := gives_bind.1 h
  have hxs := emits_reset hx
  have hys := emits_reset hy
  have hzs := emits_reset hz
  rw [hys.layout, hxs.layout] at hzs
  rw [hxs.layout] at hys
  exact (hxs.trans hys).trans hzs

/-- The Paulis that undo resets, each controlled by a result. -/
def feedbackFor (layout : OrderedMap Coord Nat) (offset : Coord × Basis → Int)
    (entries : List (Coord × Basis)) : List Instruction :=
  entries.map fun entry => controlledPauli (Action.correction entry.2) (.record (offset entry))
    (indexIn layout entry.1)

/-- Feedback for qubits of one basis whose keys are bound to one result each. -/
theorem gives_feedbackOver {t : Tracker} {position : Coord → Nat} {qubits : List Coord}
    {feedback : Basis}
    (hkeys : ∀ q ∈ qubits, t.find? (.atLayer (keyOf q) layer) = some (some [position q]))
    (hb : b.layout = layout) (ht : b.tracker = t)
    (h : Gives (qubits.forM fun q => classicalPaulis [.atLayer (keyOf q) layer] [q] feedback)
      b () b') :
    { b with circuit := (qubits.map fun q => controlledPauli feedback
        (.record (position q - t.count : Int))
        (indexIn layout q)).foldl Circuit.push b.circuit } = b' := by
  have hall := gives_forM_emits (p := fun _ => True)
    (g := fun q => [controlledPauli feedback (.record (position q - t.count : Int))
      (indexIn layout q)]) (fun q hq c c' hc ht' hone => by
        have hkey := hkeys q hq
        rw [← ht'] at hkey
        refine ⟨trivial, ?_⟩
        rw [← gives_classicalPauli hkey hone, hc, ht']) hb ht h
  rw [List.map_eq_flatMap]
  exact hall.2

/-- Feedback for qubits whose keys are bound to one result each refers to these results. -/
theorem emits_feedback {position : Coord → Nat}
    (hkeys : ∀ q ∈ xs ++ ys ++ zs,
      b.tracker.find? (.atLayer (keyOf q) layer) = some (some [position q]))
    (h : Gives ([(xs, Basis.z), (ys, Basis.x), (zs, Basis.x)].forM fun (qubits, feedback) =>
      qubits.forM fun q => classicalPaulis [.atLayer (keyOf q) layer] [q] feedback) b () b') :
    Emits b b' (feedbackFor b.layout (fun entry => (position entry.1 : Int) - b.tracker.count)
      (inBases xs ys zs)) [] [] := by
  have hlisted : ∀ entry ∈ [(xs, Basis.z), (ys, Basis.x), (zs, Basis.x)],
      ∀ q ∈ entry.1, q ∈ xs ++ ys ++ zs := by
    simp +contextual
  have hall := gives_forM_emits (p := fun _ => True)
    (fun entry hentry c c' hc ht hone => ⟨trivial, gives_feedbackOver
      (fun q hq => hkeys q (hlisted entry hentry q hq)) hc ht hone⟩) rfl rfl h
  have hemitted : feedbackFor b.layout (fun entry => (position entry.1 : Int) - b.tracker.count)
      (inBases xs ys zs) =
    [(xs, Basis.z), (ys, Basis.x), (zs, Basis.x)].flatMap fun entry => entry.1.map fun q =>
      controlledPauli entry.2 (.record ((position q : Int) - b.tracker.count))
        (indexIn b.layout q) := by
    simp [feedbackFor, inBases, Action.correction, Function.comp_def]
  rw [hemitted, ← hall.2]
  exact emits_pushes b _

/-! ## References -/

theorem actions_controlledPauli (basis : Basis) (offset : Int) (index : Nat) :
    (controlledPauli basis (.record offset) index).actions =
      [.uninterpreted (.controlled .z basis) [] [.record offset, .qubit index]] := by
  have hgate : (controlledPauli basis (.record offset) index).gate? = some (.controlled .z basis) :=
    Instruction.gate?_of_name rfl
  rw [Instruction.actions_of_gate? hgate, Instruction.targetGroups,
    Instruction.kind_of_gate? hgate]
  rfl

theorem events_controlledPauli (basis : Basis) (offset : Int) (index : Nat) :
    (controlledPauli basis (.record offset) index).events false =
      [.reference (Gate.controlled .z basis).name [offset] [] [index]] := by
  have hgate : (controlledPauli basis (.record offset) index).gate? = some (.controlled .z basis) :=
    Instruction.gate?_of_name rfl
  have hkind : (controlledPauli basis (.record offset) index).kind = .clifford2 :=
    Instruction.kind_of_gate? hgate
  rw [Instruction.events_of_isMetadata_eq_false (by rw [hkind]; rfl), Instruction.targetGroups,
    hkind]
  have hpiece : (controlledPauli basis (.record offset) index).pieceEvents
      [.record offset, .qubit index] =
        [.reference (Gate.controlled .z basis).name [offset] [] [index]] := by
    rw [Instruction.pieceEvents, hkind]
    rfl
  exact (List.flatMap_singleton _ _).trans hpiece

theorem idxOf_map_of_nodup {α β : Type} [BEq α] [LawfulBEq α] [BEq β] [LawfulBEq β] {f : α → β}
    {l : List α} {a : α} (h : (l.map f).Nodup) (ha : a ∈ l) : (l.map f).idxOf (f a) = l.idxOf a := by
  have hlt := List.idxOf_lt_length_of_mem ha
  have hindex := h.idxOf_getElem (l.idxOf a) (by rwa [List.length_map])
  rwa [List.getElem_map, List.getElem_idxOf hlt] at hindex

/-- The place of the result of an entry among those of measured entries, counted back from the
last one. -/
def resultOffset (measured : List (Coord × Basis)) (entry : Coord × Basis) : Int :=
  measured.idxOf entry - measured.length

theorem actions_feedbackFor {measured listed : List (Coord × Basis)}
    (hnodup : (indexed layout measured).Nodup) (hlisted : ∀ entry ∈ listed, entry ∈ measured) :
    (feedbackFor layout (resultOffset measured) listed).flatMap Instruction.actions =
      Action.corrections (indexed layout measured) (indexed layout listed) := by
  rw [feedbackFor, List.flatMap_map, Action.corrections, indexed, indexed, List.map_map,
    List.map_eq_flatMap]
  apply List.flatMap_congr
  intro entry hentry
  have hindex := idxOf_map_of_nodup hnodup (hlisted entry hentry)
  rw [actions_controlledPauli, Function.comp_apply, hindex, List.length_map]
  rfl

theorem resolved_feedbackFor (seen : Nat) (measured listed : List (Coord × Basis)) :
    RecordEvent.resolved (seen + measured.length)
        ((feedbackFor layout (resultOffset measured) listed).flatMap (Instruction.events false)) =
      listed.map fun entry => .reference (Gate.controlled .z (Action.correction entry.2)).name
        [(seen + measured.idxOf entry : Int)] [] [indexIn layout entry.1] := by
  have hevents : (feedbackFor layout (resultOffset measured) listed).flatMap
      (Instruction.events false) =
    listed.map fun entry => .reference (Gate.controlled .z (Action.correction entry.2)).name
      [resultOffset measured entry] [] [indexIn layout entry.1] := by
    simp only [feedbackFor, List.flatMap_map, events_controlledPauli, ← List.map_eq_flatMap]
  rw [hevents, RecordEvent.resolved_of_isResult_eq_false, List.map_map]
  · apply List.map_congr_left
    intro entry _
    have hoffset : ((seen + measured.length : Nat) : Int) + resultOffset measured entry =
        seen + measured.idxOf entry := by
      rw [resultOffset]
      omega
    rw [Function.comp_apply, RecordEvent.shifted, List.map_singleton, hoffset]
  · intro event hevent
    obtain ⟨entry, -, rfl⟩ := List.mem_map.1 hevent
    rfl

theorem mem_entryKeys {q : Coord} (h : q ∈ xs ++ ys ++ zs) :
    Key.atLayer (keyOf q) layer ∈ entryKeys keyOf layer (sortedInBases xs ys zs) := by
  have hentry : ∃ entry ∈ inBases xs ys zs, entry.1 = q := by
    simpa [inBases, or_and_right, exists_or] using h
  obtain ⟨entry, hentry, rfl⟩ := hentry
  exact List.mem_map.2 ⟨entry, (inBases_perm xs ys zs).mem_iff.1 hentry, rfl⟩

/-- Once the keys of qubits are bound to the latest results, feedback for a qubit refers to the
result of the qubit. -/
theorem emits_feedback_measured {t : Tracker}
    (ht : t.Extends b.tracker (entryKeys keyOf layer (sortedInBases xs ys zs))
      (entryKeys keyOf layer (sortedInBases xs ys zs)))
    (h : Gives ([(xs, Basis.z), (ys, Basis.x), (zs, Basis.x)].forM fun (qubits, feedback) =>
      qubits.forM fun q => classicalPaulis [.atLayer (keyOf q) layer] [q] feedback) b () b') :
    Emits b b' (feedbackFor b.layout (resultOffset (sortedInBases xs ys zs)) (inBases xs ys zs))
      [] [] := by
  have hemits := emits_feedback (fun q hq => find?_of_measured ht (mem_entryKeys hq)) h
  have hsame : feedbackFor b.layout (resultOffset (sortedInBases xs ys zs)) (inBases xs ys zs) =
      feedbackFor b.layout (fun entry => ((t.count +
        (entryKeys keyOf layer (sortedInBases xs ys zs)).idxOf (.atLayer (keyOf entry.1) layer) :
          Nat) : Int) - b.tracker.count) (inBases xs ys zs) := by
    -- Feedback is in the order of the caller and results are in canonical order: the key of an entry
    -- has the place of the entry.
    refine List.map_congr_left fun entry hentry => ?_
    have hindex := idxOf_map_of_nodup ht.nodup ((inBases_perm xs ys zs).mem_iff.1 hentry)
    have hoffset : ((t.count + (sortedInBases xs ys zs).idxOf entry : Nat) : Int) -
        b.tracker.count = resultOffset (sortedInBases xs ys zs) entry := by
      rw [ht.count, entryKeys, List.length_map, resultOffset]
      omega
    rw [← hoffset, ← hindex]
    rfl
  rwa [hsame]

/-- What follows the measurements: a tick, the resets and the feedback. -/
def afterMeasurements (layout : OrderedMap Coord Nat) (xs ys zs : List Coord) : List Instruction :=
  [.tick] ++ overBases layout Gate.reset xs ys zs ++
    feedbackFor layout (resultOffset (sortedInBases xs ys zs)) (inBases xs ys zs)

/-- After the measurements every feedback finds the result of its qubit. -/
theorem gives_demolish (h : Gives (demolish xs ys zs keyOf layer) b () b') :
    ∃ mid, Gives (measureInBases xs ys zs keyOf layer) b () mid ∧
      Emits mid b' (afterMeasurements b.layout xs ys zs) [] [] := by
  obtain ⟨_, first, hx, h⟩ := gives_bind.1 h
  obtain ⟨_, second, hy, h⟩ := gives_bind.1 h
  obtain ⟨_, mid, hz, h⟩ := gives_bind.1 h
  obtain ⟨_, ticked, htick, h⟩ := gives_bind.1 h
  obtain ⟨_, fourth, hresetx, h⟩ := gives_bind.1 h
  obtain ⟨_, fifth, hresety, h⟩ := gives_bind.1 h
  obtain ⟨_, last, hresetz, hfeedback⟩ := gives_bind.1 h
  have hmeasure : Gives (measureInBases xs ys zs keyOf layer) b () mid :=
    gives_bind.2 ⟨(), first, hx, gives_bind.2 ⟨(), second, hy, hz⟩⟩
  have hmeasured := emits_measureInBases hmeasure
  have hticked := emits_tick htick
  have hreset := emits_resetInBases
    (gives_bind.2 ⟨(), fourth, hresetx, gives_bind.2 ⟨(), fifth, hresety, hresetz⟩⟩)
  have hready := (hmeasured.trans hticked).trans hreset
  rw [List.append_nil, List.append_nil] at hready
  have hundone := emits_feedback_measured hready.tracker hfeedback
  rw [hready.layout] at hundone
  rw [hticked.layout, hmeasured.layout] at hreset
  exact ⟨mid, hmeasure, (hticked.trans hreset).trans hundone⟩

/-- The measured qubits have different indices. -/
theorem nodup_indexed {place : Coord → Coord} {qubits : List Coord}
    (hb : b.layout = (Builder.forQubitsWith place qubits).layout)
    (h : Gives (measureInBases xs ys zs keyOf layer) b () b') :
    ((indexed b.layout (sortedInBases xs ys zs)).map Prod.fst).Nodup := by
  have hknown := known_of_measureInBases h
  have hkeys : (((sortedInBases xs ys zs).map Prod.fst).map fun q =>
      Key.atLayer (keyOf q) layer).Nodup := by
    rw [List.map_map]
    exact (emits_measureInBases h).tracker.nodup
  have hqubits : (indexed b.layout (sortedInBases xs ys zs)).map Prod.fst =
      ((sortedInBases xs ys zs).map Prod.fst).map (indexIn b.layout) := by
    rw [indexed, List.map_map, List.map_map]
    rfl
  -- A qubit listed twice would bind its key twice, and known qubits have indices of their own.
  rw [hqubits]
  refine hkeys.of_map.map_on fun p hp q hq hsame => ?_
  obtain ⟨entry, hentry, rfl⟩ := List.mem_map.1 hp
  obtain ⟨other, hother, rfl⟩ := List.mem_map.1 hq
  exact eq_of_indexIn_eq hb (hknown entry hentry) (hknown other hother) hsame

/-- Demolition with feedback measures its qubits in their bases, and whatever the outcomes are, what
it appends then leaves the map on states as it is after the measurements.  Each feedback refers to
the result of its own qubit. -/
theorem demolish_transparent {place : Coord → Coord} {qubits : List Coord}
    (hb : b.layout = (Builder.forQubitsWith place qubits).layout)
    (h : Gives (demolish xs ys zs keyOf layer) b () b') :
    ∃ (mid : Builder) (measuring rest : List Instruction) (keys : List Key),
      Gives (measureInBases xs ys zs keyOf layer) b () mid ∧
      Emits b mid measuring keys keys ∧ Emits mid b' rest [] [] ∧
      measuring.flatMap Instruction.actions =
        Action.measurements (indexed b.layout (sortedInBases xs ys zs)) ∧
      (∀ (I : Interpretation) (outcome : Nat → Bool) (recorded : Nat),
        Action.meaning (I.withFeedback outcome) outcome recorded
            ((measuring ++ rest).flatMap Instruction.actions) =
          Action.meaning (I.withFeedback outcome) outcome recorded
            (measuring.flatMap Instruction.actions)) ∧
      ∀ seen, RecordEvent.resolved seen
          ((measuring ++ rest).flatMap (Instruction.events false)) =
        (sortedInBases xs ys zs).map (fun entry => .result [indexIn b.layout entry.1]) ++
          (inBases xs ys zs).map fun entry =>
            .reference (Gate.controlled .z (Action.correction entry.2)).name
              [(seen + (sortedInBases xs ys zs).idxOf entry : Int)] []
              [indexIn b.layout entry.1] := by
  obtain ⟨mid, hmeasure, hrest⟩ := gives_demolish h
  have hnodup := nodup_indexed hb hmeasure
  have hperm := inBases_perm xs ys zs
  have hlisted : ∀ entry ∈ inBases xs ys zs, entry ∈ sortedInBases xs ys zs :=
    fun entry hentry => hperm.mem_iff.1 hentry
  refine ⟨mid, _, _, _, hmeasure, emits_measureInBases hmeasure, hrest, actions_measurements,
    ?_, ?_⟩
  · intro I outcome recorded
    have hrestActions : (afterMeasurements b.layout xs ys zs).flatMap Instruction.actions =
        Action.resets (indexed b.layout (sortedInBases xs ys zs)) ++
          Action.corrections (indexed b.layout (sortedInBases xs ys zs))
            (indexed b.layout (inBases xs ys zs)) := by
      rw [afterMeasurements, List.flatMap_append, List.flatMap_append, List.flatMap_singleton,
        Instruction.actions_tick, actions_resets, actions_feedbackFor hnodup.of_map hlisted,
        List.nil_append]
    rw [List.flatMap_append, actions_measurements, hrestActions, ← List.append_assoc]
    exact Action.meaning_corrections I outcome recorded hnodup (hperm.map _)
  · intro seen
    have hquiet : ([Instruction.tick] ++ overBases b.layout Gate.reset xs ys zs).flatMap
        (Instruction.events false) = [] := by
      rw [List.flatMap_append, List.flatMap_singleton, events_resets, List.append_nil]
      exact Instruction.events_of_isPlain Instruction.isPlain_tick
    rw [afterMeasurements, List.flatMap_append, List.flatMap_append, hquiet, List.nil_append,
      events_measurements, RecordEvent.resolved_results, List.length_map, indexed,
      List.length_map, resolved_feedbackFor, List.map_map, List.map_map]
    rfl

/-! ## An instance -/

/-- Four qubits in a row. -/
def fourQubits : Builder := .forQubits [.make 0 0, .make 1 0, .make 2 0, .make 3 0]

theorem sort_pair {p q : Coord} (h : p.le q = false) : Coord.sort [p, q] = [q, p] := by
  simp [Coord.sort, List.mergeSort, h]

/-- Two qubits are listed against their canonical order, so that their feedback is written in the
other order than their results. -/
theorem demolish_transparent_fourQubits :
    ∃ (b' mid : Builder) (measuring rest : List Instruction) (keys : List Key),
      Gives (demolish [.make 2 0, .make 0 0] [.make 3 0] [.make 1 0] .coord "end")
        fourQubits () b' ∧
      Emits fourQubits mid measuring keys keys ∧ Emits mid b' rest [] [] ∧
      (∀ (I : Interpretation) (outcome : Nat → Bool) (recorded : Nat),
        Action.meaning (I.withFeedback outcome) outcome recorded
            ((measuring ++ rest).flatMap Instruction.actions) =
          Action.meaning (I.withFeedback outcome) outcome recorded
            (measuring.flatMap Instruction.actions)) ∧
      RecordEvent.resolved 0 ((measuring ++ rest).flatMap (Instruction.events false)) =
        [.result [0], .result [2], .result [3], .result [1], .reference "CZ" [1] [] [2],
          .reference "CZ" [0] [] [0], .reference "CX" [2] [] [3], .reference "CX" [3] [] [1]] := by
  have hpair : Coord.sort [.make 2 0, .make 0 0] = [.make 0 0, .make 2 0] :=
    sort_pair (by decide +kernel)
  have hsingle : ∀ q, Coord.sort [q] = [q] := List.mergeSort_singleton
  have hok : (outcome (demolish [.make 2 0, .make 0 0] [.make 3 0] [.make 1 0] .coord "end")
      fourQubits).1.isOk = true := by
    simp only [demolish, measure, gate, classicalPaulis, hpair, hsingle]
    decide +kernel
  have hlayout : fourQubits.layout = (Builder.forQubitsWith id
      [.make 0 0, .make 1 0, .make 2 0, .make 3 0]).layout := rfl
  obtain ⟨b', hgives⟩ := exists_gives hok
  obtain ⟨mid, measuring, rest, keys, -, hmeasured, hrest, -, hmeaning, hrecord⟩ :=
    demolish_transparent hlayout hgives
  refine ⟨b', mid, measuring, rest, keys, hgives, hmeasured, hrest, hmeaning, ?_⟩
  rw [hrecord 0, sortedInBases, hpair, hsingle, hsingle]
  decide +kernel

end Build

end StabCircuit
