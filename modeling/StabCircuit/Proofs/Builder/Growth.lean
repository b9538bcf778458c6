import StabCircuit.Proofs.Builder.Programs

/-!
# Calls and the events they write

A call that succeeds appends events to the circuit and binds fresh keys: those of
results to the next indices, in the order of the results, and the others to none.
Calls one after another append and bind one after another.
-/

namespace StabCircuit

namespace Tracker

/-- The index of the result for a key, when the results for `measured` begin at `start`. -/
def placed (measured : List Key) (start : Nat) (key : Key) : List Nat :=
  if key ∈ measured then [start + measured.idxOf key] else []

/-- A tracker has taken in fresh keys, and the next results for some of them. -/
structure Extends (t t' : Tracker) (keys measured : List Key) : Prop where
  subset : ∀ key ∈ measured, key ∈ keys
  nodup : keys.Nodup
  fresh : ∀ key ∈ keys, t.find? key = none
  count : t'.count = t.count + measured.length
  bound : ∀ key ∈ keys, t'.find? key = some (some (placed measured t.count key))
  other : ∀ key, key ∉ keys → t'.find? key = t.find? key

theorem extends_refl (t : Tracker) : Extends t t [] [] := by
  constructor <;> simp

theorem placed_append_left {measured measured' : List Key} {start : Nat} {key : Key}
    (h : key ∉ measured') :
    placed (measured ++ measured') start key = placed measured start key := by
  by_cases hkey : key ∈ measured
  · simp [placed, hkey, List.idxOf_append_of_mem hkey]
  · simp [placed, hkey, h]

theorem placed_append_right {measured measured' : List Key} {start : Nat} {key : Key}
    (h : key ∉ measured) :
    placed (measured ++ measured') start key =
      placed measured' (start + measured.length) key := by
  by_cases hkey : key ∈ measured'
  · simp [placed, hkey, List.idxOf_append_of_notMem h, Nat.add_assoc]
  · simp [placed, hkey, h]

/-- Keys that are taken in later are fresh, so that they are none of the earlier ones. -/
theorem Extends.trans {t t' t'' : Tracker} {keys keys' measured measured' : List Key}
    (h : Extends t t' keys measured) (h' : Extends t' t'' keys' measured') :
    Extends t t'' (keys ++ keys') (measured ++ measured') := by
  have hapart : ∀ key ∈ keys, key ∉ keys' := by
    intro key hkey hkey'
    have hbound := h.bound key hkey
    rw [h'.fresh key hkey'] at hbound
    cases hbound
  constructor
  · intro key hkey
    rw [List.mem_append] at hkey ⊢
    exact hkey.imp (h.subset key) (h'.subset key)
  · rw [List.nodup_append]
    refine ⟨h.nodup, h'.nodup, ?_⟩
    rintro key hkey _ hkey' rfl
    exact hapart key hkey hkey'
  · intro key hkey
    rw [List.mem_append] at hkey
    rcases hkey with hkey | hkey
    · exact h.fresh key hkey
    · rw [← h.other key fun hbefore => hapart key hbefore hkey]
      exact h'.fresh key hkey
  · rw [h'.count, h.count, List.length_append, Nat.add_assoc]
  · intro key hkey
    by_cases hbefore : key ∈ keys
    · have hafter := hapart key hbefore
      rw [h'.other key hafter, h.bound key hbefore,
        placed_append_left fun hmeasured => hafter (h'.subset key hmeasured)]
    · have hafter : key ∈ keys' := by
        rw [List.mem_append] at hkey
        exact hkey.resolve_left hbefore
      rw [h'.bound key hafter, h.count,
        placed_append_right fun hmeasured => hbefore (h.subset key hmeasured)]
  · intro key hkey
    rw [List.mem_append, not_or] at hkey
    rw [h'.other key hkey.2, h.other key hkey.1]

theorem Extends.of_perm {t t' : Tracker} {keys keys' measured : List Key}
    (h : Extends t t' keys measured) (hperm : keys.Perm keys') : Extends t t' keys' measured := by
  constructor
  · intro key hkey
    exact hperm.mem_iff.1 (h.subset key hkey)
  · exact hperm.nodup_iff.1 h.nodup
  · intro key hkey
    exact h.fresh key (hperm.mem_iff.2 hkey)
  · exact h.count
  · intro key hkey
    exact h.bound key (hperm.mem_iff.2 hkey)
  · intro key hkey
    exact h.other key fun hmem => hkey (hperm.mem_iff.1 hmem)

theorem Extends.isBounded {t t' : Tracker} {keys measured : List Key}
    (h : Extends t t' keys measured) (ht : t.IsBounded) : t'.IsBounded := by
  intro key indices hfind
  rw [h.count]
  by_cases hkey : key ∈ keys
  · rw [h.bound key hkey] at hfind
    obtain rfl := Option.some.inj (Option.some.inj hfind)
    by_cases hmeasured : key ∈ measured
    · have hlt := List.idxOf_lt_length_of_mem hmeasured
      simp [placed, hmeasured, hlt]
    · simp [placed, hmeasured]
  · rw [h.other key hkey] at hfind
    obtain ⟨hsorted, hlt⟩ := ht key indices hfind
    refine ⟨hsorted, ?_⟩
    intro index hindex
    exact Nat.lt_of_lt_of_le (hlt index hindex) (Nat.le_add_right _ _)

theorem extends_record {t t' : Tracker} {key : Key} (h : t.record key = .ok t') :
    Extends t t' [key] [key] := by
  obtain ⟨hfresh, hcount, -, hfind⟩ := find?_record h
  constructor
  · simp
  · simp
  · simpa using hfresh
  · simp [hcount]
  · simp [hfind, placed]
  · intro other hother
    rw [hfind, if_neg (by simpa using hother)]

theorem extends_recordGroup_nil {t t' : Tracker} {key : Key} (h : t.recordGroup [] key = .ok t') :
    Extends t t' [key] [] := by
  obtain ⟨hfresh, hcount, hfind⟩ := find?_bind (show t.bind key (some []) = .ok t' from h)
  constructor
  · simp
  · simp
  · simpa using hfresh
  · simp [hcount]
  · simp [hfind, placed]
  · intro other hother
    rw [hfind, if_neg (by simpa using hother)]

theorem extends_recordAll {keys : List Key} {t t' : Tracker} (h : t.recordAll keys = .ok t') :
    Extends t t' keys keys := by
  induction keys generalizing t with
  | nil =>
    obtain rfl := Except.ok.inj h
    exact extends_refl t
  | cons key keys ih =>
    obtain ⟨next, hnext, hrest⟩ := bind_eq_ok.1 h
    exact (extends_record hnext).trans (ih hrest)

theorem IsBounded.repeatRecent {t t' : Tracker} {body times : Nat} (ht : t.IsBounded)
    (h : t.repeatRecent body times = .ok t') : t'.IsBounded := by
  obtain ⟨-, rfl⟩ | ⟨-, -, -, rfl⟩ := repeatRecent_cases h
  · exact ht
  · exact ht.shiftFrom _ _

/-- The results that keys resolve to, counted back from the present. -/
def offsets (t : Tracker) (keys : List Key) : List Int :=
  (t.parity keys).sort.map fun (index : Nat) => (index - t.count : Int)

theorem offsets_eq {t : Tracker} {keys : List Key} {indices : List Nat}
    (h : t.parity keys = indices.toFinset) (hsorted : indices.Pairwise (· < ·)) :
    t.offsets keys = indices.map fun (index : Nat) => (index - t.count : Int) := by
  have hnodup : indices.Nodup := hsorted.imp Nat.ne_of_lt
  rw [offsets, h, (List.toFinset_sort (· ≤ ·) hnodup).2 (hsorted.imp Nat.le_of_lt)]

theorem offsets_singleton {t : Tracker} {key : Key} {index : Nat}
    (h : t.find? key = some (some [index])) : t.offsets [key] = [(index - t.count : Int)] := by
  have hparity : t.parity [key] = [index].toFinset := by
    rw [parity, List.foldr_cons, indexSet_of_find? h]
    exact symmDiff_bot _
  rw [offsets_eq hparity (List.pairwise_singleton _ _), List.map_singleton]

theorem offsets_pair {t : Tracker} {key before : Key} {index earlier : Nat}
    (h : t.find? key = some (some [index])) (hbefore : t.find? before = some (some [earlier]))
    (hlt : earlier < index) :
    t.offsets [key, before] = [(earlier - t.count : Int), (index - t.count : Int)] := by
  have hparity : t.parity [key, before] = [earlier, index].toFinset := by
    rw [parity, List.foldr_cons, List.foldr_cons, List.foldr_nil, indexSet_of_find? h,
      indexSet_of_find? hbefore]
    ext other
    simp only [Finset.mem_symmDiff, List.mem_toFinset, List.mem_cons, List.not_mem_nil, or_false,
      Finset.notMem_empty, false_and, not_false_eq_true, and_true]
    omega
  rw [offsets_eq hparity (by simpa using hlt)]
  rfl

theorem offsets_of_unmeasured {t : Tracker} {keys : List Key}
    (h : ∀ key ∈ keys, t.find? key = some (some [])) : t.offsets keys = [] := by
  have hparity : t.parity keys = ([] : List Nat).toFinset := by
    induction keys with
    | nil => rfl
    | cons key keys ih =>
      rw [List.forall_mem_cons] at h
      have hrest : keys.foldr (fun key rest => symmDiff (t.indexSet key) rest) ∅ = ∅ := ih h.2
      rw [parity, List.foldr_cons, indexSet_of_find? h.1, hrest]
      exact symmDiff_bot _
  rw [offsets_eq hparity .nil, List.map_nil]

end Tracker

/-! ## Events of instructions -/

namespace Instruction

/-- The events of a measurement are its results. -/
theorem events_of_isMeasurement {i : Instruction} (hi : i.IsSound)
    (h : i.kind.isMeasurement = true) : i.events false = i.results.map .result := by
  have hmetadata : i.kind.isMetadata = false := by
    revert h
    cases i.kind <;> simp [GateKind.isMeasurement, GateKind.isMetadata]
  have hnone := List.flatMap_eq_nil_iff.1 (references_of_isMeasurement hi h)
  rw [events_of_isMetadata_eq_false hmetadata, results, if_pos h, List.map_map,
    List.map_eq_flatMap]
  apply List.flatMap_congr
  intro group hgroup
  rw [pieceEvents, hnone group hgroup, if_pos h]
  rfl

/-- The events of an annotation: what it declares, and the reference of its targets. -/
def annotation (g : Gate) (args : List Scalar) (offsets : List Int) : List RecordEvent :=
  .annotated g.name args offsets ::
    if offsets = [] then [] else [.reference g.name offsets [] []]

theorem events_annotated {g : Gate} (hg : g = .detector ∨ g = .observableInclude)
    {offsets : List Int} {args : List Scalar} {i : Instruction}
    (h : make g.name (offsets.map .record) args = .ok i) :
    i.IsSound ∧ i.events false = annotation g args offsets := by
  have hkind : g.kind = .metadata := by
    rcases hg with rfl | rfl <;> rfl
  obtain ⟨hsound, -, hreferences⟩ := references_annotated hkind h
  obtain ⟨-, hkind', rfl⟩ := of_make_name h
  rw [hkind] at hkind'
  have hoffsets : (offsets.map Target.record).filterMap Target.offset? = offsets := by
    rw [List.filterMap_map]
    exact List.filterMap_some
  have hgate : gate? { name := g.name, targets := offsets.map Target.record, args } = some g :=
    gate?_of_name rfl
  refine ⟨hsound, ?_⟩
  rw [references, targetGroups, hkind', List.flatMap_singleton] at hreferences
  rw [events, targetGroups, hkind', List.flatMap_singleton, pieceEvents, hreferences, hkind',
    annotation, hoffsets]
  rcases hg with rfl | rfl
  · simp [isAnnotated, isCoordinate, hgate, GateKind.isMeasurement]
  · simp [isAnnotated, isCoordinate, hgate, GateKind.isMeasurement]

end Instruction

/-! ## Calls -/

namespace Builder

/-- The instructions of the circuit are sound and the tracker binds results that happened. -/
structure IsSound (b : Builder) : Prop where
  circuit : Circuit.Everywhere Instruction.IsSound b.circuit
  tracker : b.tracker.IsBounded

/-- A builder has gone on from another: with more events and more keys, and results for some of
these. -/
structure Grows (b b' : Builder) (events : List RecordEvent) (keys measured : List Key) :
    Prop where
  layout : b'.layout = b.layout
  sound : Circuit.Everywhere Instruction.IsSound b'.circuit
  events : Circuit.unrolled (Instruction.events false) b'.circuit =
    Circuit.unrolled (Instruction.events false) b.circuit ++ events
  tracker : b.tracker.Extends b'.tracker keys measured

variable {b b' b'' : Builder} {events events' : List RecordEvent}
  {keys keys' measured measured' : List Key}

theorem Grows.isSound (h : Grows b b' events keys measured) (hb : b.IsSound) : b'.IsSound :=
  ⟨h.sound, h.tracker.isBounded hb.tracker⟩

theorem Grows.trans (h : Grows b b' events keys measured)
    (h' : Grows b' b'' events' keys' measured') :
    Grows b b'' (events ++ events') (keys ++ keys') (measured ++ measured') := by
  constructor
  · rw [h'.layout, h.layout]
  · exact h'.sound
  · rw [h'.events, h.events, List.append_assoc]
  · exact h.tracker.trans h'.tracker

theorem IsSound.grows_refl (hb : b.IsSound) : Grows b b [] [] [] :=
  ⟨rfl, hb.circuit, by simp, Tracker.extends_refl _⟩

theorem IsSound.grows_push (hb : b.IsSound) {i : Instruction} (hi : i.IsSound) {t : Tracker}
    (ht : b.tracker.Extends t keys measured) :
    Grows b { b with circuit := b.circuit.push i, tracker := t } (i.events false) keys measured := by
  constructor
  · rfl
  · exact Circuit.everywhere_push Instruction.joinable_isSound hb.circuit hi
  · exact Circuit.unrolled_push Instruction.additive_events (hb.circuit.mono fun _ h => h.1) hi.1
  · exact ht

theorem IsSound.grows_push_plain (hb : b.IsSound) {i : Instruction} (hi : i.IsPlain) :
    Grows b { b with circuit := b.circuit.push i } [] [] [] := by
  have hgrows := hb.grows_push hi.isSound (Tracker.extends_refl b.tracker)
  rwa [Instruction.events_of_isPlain hi] at hgrows

theorem IsSound.grows_appendsPlain (hb : b.IsSound) (h : Build.AppendsPlain b b') :
    Grows b b' [] [] [] := by
  rcases h with rfl | ⟨i, hi, rfl⟩
  · exact hb.grows_refl
  · exact hb.grows_push_plain hi

theorem IsSound.grows_tick (hb : b.IsSound) (h : Build.Gives Build.tick b () b') :
    Grows b b' [] [] [] := by
  obtain rfl := Build.gives_modify.1 h
  exact hb.grows_push_plain Instruction.isPlain_tick

/-- Calls that each grow the builder, while an invariant lasts, grow it by what they all add. -/
theorem grows_forM {α : Type} {f : α → Build Unit} {events : α → List RecordEvent}
    {keys measured : α → List Key} {p : Builder → Prop} (hp : ∀ b, p b → b.IsSound) {xs : List α}
    (hstep : ∀ x ∈ xs, ∀ b b', p b → Build.Gives (f x) b () b' →
      Grows b b' (events x) (keys x) (measured x) ∧ p b')
    (hb : p b) (h : Build.Gives (xs.forM f) b () b') :
    Grows b b' (xs.flatMap events) (xs.flatMap keys) (xs.flatMap measured) ∧ p b' := by
  have hall := Build.gives_forM_composes (R := Grows) (q := fun _ => True)
    (fun b hb => (hp b hb).grows_refl) Grows.trans
    (fun x hx b b' hb hone => ⟨trivial, hstep x hx b b' hb hone⟩) hb h
  exact hall.2

/-- Calls that write no events and bind no keys, one after another. -/
theorem IsSound.grows_forM_quiet {α : Type} {f : α → Build Unit} {xs : List α} (hb : b.IsSound)
    (hstep : ∀ x ∈ xs, ∀ b b', b.IsSound → Build.Gives (f x) b () b' → Grows b b' [] [] [])
    (h : Build.Gives (xs.forM f) b () b') : Grows b b' [] [] [] := by
  have hgrows := grows_forM (fun _ hb => hb) (fun x hx b b' hb h =>
    ⟨hstep x hx b b' hb h, (hstep x hx b b' hb h).isSound hb⟩) hb h
  have hnil : ∀ β : Type, xs.flatMap (fun _ => ([] : List β)) = [] := fun _ => by simp
  rw [hnil, hnil] at hgrows
  exact hgrows.1

theorem flatMap_unless {α β : Type} (p : α → Bool) (f : α → β) (xs : List α) :
    xs.flatMap (fun x => if p x then [] else [f x]) = (xs.filter fun x => !p x).map f := by
  induction xs with
  | nil => rfl
  | cons x xs ih =>
    rw [List.flatMap_cons, ih]
    cases hx : p x <;> simp [hx]

theorem IsSound.grows_measure (hb : b.IsSound) {qubits : List Coord} {basis : Basis}
    {keyOf : Coord → Key} {layer : String}
    (h : Build.Gives (Build.measure qubits basis keyOf layer) b () b') :
    Grows b b' ((Coord.sort qubits).map fun q => .result [indexIn b.layout q])
      ((Coord.sort qubits).map fun q => .atLayer (keyOf q) layer)
      ((Coord.sort qubits).map fun q => .atLayer (keyOf q) layer) := by
  rcases Build.measure_spec h with ⟨hnone, rfl⟩ | ⟨i, t, hi, ht, rfl⟩
  · rw [hnone]
    exact hb.grows_refl
  · obtain ⟨hsound, hkind, hresults⟩ := Instruction.results_measure hi
    have hgrows := hb.grows_push hsound (Tracker.extends_recordAll ht)
    rw [Instruction.events_of_isMeasurement hsound hkind, hresults, List.map_map,
      List.map_map] at hgrows
    exact hgrows

theorem IsSound.grows_measureProduct (hb : b.IsSound) {product : PauliProduct} {key : Key}
    {flip : Option Scalar} (h : Build.Gives (Build.measureProduct product key flip) b () b') :
    Grows b b'
      (if product.isIdentity then [] else
        [.result (product.terms.map fun term => indexIn b.layout term.1)])
      [key] (if product.isIdentity then [] else [key]) := by
  rcases Build.measureProduct_spec h with ⟨hidentity, t, ht, rfl⟩ | ⟨hidentity, i, t, hi, ht, rfl⟩
  · rw [if_pos hidentity, if_pos hidentity]
    exact ⟨rfl, hb.circuit, by simp, Tracker.extends_recordGroup_nil ht⟩
  · obtain ⟨hne, hpauli⟩ := Build.factors_spec hidentity b.layout
    obtain ⟨hsound, hkind, hresults⟩ := Instruction.results_product hne hpauli hi
    have hgrows := hb.grows_push hsound (Tracker.extends_record ht)
    have hqubits : (product.terms.map fun term =>
        Target.pauli term.2 (indexIn b.layout term.1)).filterMap Target.qubit? =
          product.terms.map fun term => indexIn b.layout term.1 := by
      rw [List.filterMap_map]
      exact congrFun List.filterMap_eq_map product.terms
    rw [Instruction.events_of_isMeasurement hsound hkind, hresults, hqubits] at hgrows
    rw [hidentity]
    exact hgrows

theorem IsSound.grows_detector (hb : b.IsSound) {refs : List Key} {options : DetectorOptions}
    (h : Build.Gives (Build.detector refs options) b () b') :
    ∃ args, options.coordinates = .ok args ∧
      Grows b b' (Instruction.annotation .detector args
        (b.tracker.offsets (Build.detectorKeys b.tracker refs options))) [] [] := by
  obtain ⟨targets, args, i, htargets, hargs, hi, rfl⟩ := Build.detector_spec h
  obtain rfl := Tracker.recordTargets_eq hb.tracker htargets
  obtain ⟨hsound, hevents⟩ := Instruction.events_annotated (.inl rfl) hi
  have hgrows := hb.grows_push hsound (Tracker.extends_refl b.tracker)
  rw [hevents] at hgrows
  exact ⟨args, hargs, hgrows⟩

theorem IsSound.grows_includeObservable (hb : b.IsSound) {refs : List Key} {index : Nat}
    (h : Build.Gives (Build.includeObservable refs index) b () b') :
    Grows b b' (if b.tracker.offsets refs = [] then [] else
      Instruction.annotation .observableInclude [Scalar.ofNat index] (b.tracker.offsets refs))
      [] [] := by
  obtain ⟨targets, htargets, h⟩ := Build.includeObservable_spec h
  obtain rfl : targets = (b.tracker.offsets refs).map .record :=
    Tracker.recordTargets_eq hb.tracker htargets
  rcases h with ⟨hnone, rfl⟩ | ⟨hsome, i, hi, rfl⟩
  · rw [if_pos (List.map_eq_nil_iff.1 hnone)]
    exact hb.grows_refl
  · obtain ⟨hsound, hevents⟩ := Instruction.events_annotated (.inr rfl) hi
    have hgrows := hb.grows_push hsound (Tracker.extends_refl b.tracker)
    rw [if_neg fun hnil => hsome (List.map_eq_nil_iff.2 hnil)]
    rw [hevents] at hgrows
    exact hgrows

end Builder

end StabCircuit
