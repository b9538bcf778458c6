import StabCircuit.Proofs.Builder.Growth
import StabCircuit.Proofs.Builder.SharedRecord
import StabCircuit.Proofs.Circuit.Settled

/-!
# Calls that fail

A call on a builder checks everything before it writes, so that what it has begun to write
it completes: a call that fails leaves the builder, and all builders that share its tracker,
as they were.  A measurement that succeeds adds to the circuit as many results as keys to
the tracker, except for a product behind an instruction that a combiner ends, which takes
the product in.
-/

namespace StabCircuit

namespace Build

variable {α β : Type} {b b' : Builder}

/-! ## Reading and writing -/

/-- The call leaves the builder as it is, whatever comes of it. -/
def ReadsAt (x : Build α) (b : Builder) : Prop := ∀ result b', outcome x b = (result, b') → b' = b

/-- The call leaves the builder as it is when it fails. -/
def AtomicAt (x : Build α) (b : Builder) : Prop := ∀ e b', outcome x b = (.error e, b') → b' = b

/-- The call succeeds. -/
def Succeeds (x : Build α) (b : Builder) : Prop := ∃ a b', Gives x b a b'

theorem ReadsAt.atomicAt {x : Build α} (h : ReadsAt x b) : AtomicAt x b :=
  fun e b' hfails => h (.error e) b' hfails

theorem Succeeds.ne_error {x : Build α} (h : Succeeds x b) (e : CircuitError) (b' : Builder) :
    outcome x b ≠ (.error e, b') := by
  obtain ⟨a, after, hgives⟩ := h
  rw [hgives]
  exact fun hfails => by cases hfails

theorem Succeeds.atomicAt {x : Build α} (h : Succeeds x b) : AtomicAt x b :=
  fun e b' hfails => absurd hfails (h.ne_error e b')

theorem readsAt_pure (a : α) : ReadsAt (pure a) b := by
  intro result b' h
  exact (Prod.mk.inj h).2.symm

theorem readsAt_throw (e : CircuitError) : ReadsAt (throw e : Build α) b := by
  intro result b' h
  exact (Prod.mk.inj h).2.symm

theorem readsAt_get : ReadsAt (get : Build Builder) b := by
  intro result b' h
  exact (Prod.mk.inj h).2.symm

theorem readsAt_ask (f : Builder → Except CircuitError α) : ReadsAt (ask f) b := by
  intro result b' h
  have hrun : outcome (ask f) b = outcome (ask.liftExcept (f b)) b := rfl
  rw [hrun] at h
  cases hf : f b with
  | error e =>
    rw [hf] at h
    exact (Prod.mk.inj h).2.symm
  | ok a =>
    rw [hf] at h
    exact (Prod.mk.inj h).2.symm

theorem succeeds_modify (f : Builder → Builder) : Succeeds (modify f : Build Unit) b :=
  ⟨(), f b, gives_modify.2 rfl⟩

/-- A call in two steps fails in the first one, or in the second one after the first. -/
theorem fails_bind {x : Build α} {f : α → Build β} {e : CircuitError}
    (h : outcome (x >>= f) b = (.error e, b')) :
    outcome x b = (.error e, b') ∨
      ∃ a mid, Gives x b a mid ∧ outcome (f a) mid = (.error e, b') := by
  have hrun : outcome (x >>= f) b = ExceptT.bindCont f (outcome x b).1 (outcome x b).2 := rfl
  rw [hrun] at h
  rcases hx : outcome x b with ⟨result, mid⟩
  rw [hx] at h
  rcases result with e' | a
  · have hstop : ((.error e', mid) : Except CircuitError β × Builder) = (.error e, b') := h
    cases hstop
    exact .inl rfl
  · exact .inr ⟨a, mid, hx, h⟩

theorem ReadsAt.bind {x : Build α} {f : α → Build β} (hx : ReadsAt x b)
    (hf : ∀ a, Gives x b a b → ReadsAt (f a) b) : ReadsAt (x >>= f) b := by
  intro result b' h
  rcases result with e | c
  · rcases fails_bind h with hfails | ⟨a, mid, hgives, hnext⟩
    · exact hx _ b' hfails
    · obtain rfl := hx _ mid hgives
      exact hf a hgives _ b' hnext
  · obtain ⟨a, mid, hgives, hnext⟩ := gives_bind.1 h
    obtain rfl := hx _ mid hgives
    exact hf a hgives _ b' hnext

/-- What is read before does not matter to a call that fails without a trace. -/
theorem ReadsAt.bind_atomicAt {x : Build α} {f : α → Build β} (hx : ReadsAt x b)
    (hf : ∀ a, Gives x b a b → AtomicAt (f a) b) : AtomicAt (x >>= f) b := by
  intro e b' h
  rcases fails_bind h with hfails | ⟨a, mid, hgives, hnext⟩
  · exact hx _ b' hfails
  · obtain rfl := hx _ mid hgives
    exact hf a hgives e b' hnext

/-- A call fails without a trace when it cannot fail any more once it has written. -/
theorem AtomicAt.bind_succeeds {x : Build α} {f : α → Build β} (hx : AtomicAt x b)
    (hf : ∀ a mid, Gives x b a mid → Succeeds (f a) mid) : AtomicAt (x >>= f) b := by
  intro e b' h
  rcases fails_bind h with hfails | ⟨a, mid, hgives, hnext⟩
  · exact hx e b' hfails
  · exact absurd hnext ((hf a mid hgives).ne_error e b')

theorem atomicAt_throw_bind (e : CircuitError) (f : α → Build β) :
    AtomicAt (throw e >>= f) b :=
  (readsAt_throw e).bind_atomicAt fun _ h => absurd h not_gives_throw

theorem atomicAt_append (name : String) (targets : List Target) (args : List Scalar) :
    AtomicAt (append name targets args) b :=
  (readsAt_ask _).bind_atomicAt fun _ _ => (succeeds_modify _).atomicAt

theorem atomicAt_updateTracker (f : Tracker → Except CircuitError Tracker) :
    AtomicAt (updateTracker f) b :=
  (readsAt_ask _).bind_atomicAt fun _ _ => (succeeds_modify _).atomicAt

theorem readsAt_reserve (more : Nat) : ReadsAt (reserve more) b :=
  (readsAt_ask _).bind fun _ _ => readsAt_pure _

theorem readsAt_mapM {f : α → Build β} {xs : List α} (hf : ∀ x ∈ xs, ReadsAt (f x) b) :
    ReadsAt (xs.mapM f) b := by
  induction xs with
  | nil => exact readsAt_pure _
  | cons x xs ih =>
    rw [List.forall_mem_cons] at hf
    rw [List.mapM_cons]
    exact hf.1.bind fun _ _ => (ih hf.2).bind fun _ _ => readsAt_pure _

theorem succeeds_forM {f : α → Build Unit} {xs : List α} (hf : ∀ x ∈ xs, ∀ b, Succeeds (f x) b)
    (b : Builder) : Succeeds (xs.forM f) b := by
  induction xs generalizing b with
  | nil => exact ⟨(), b, gives_pure.2 ⟨rfl, rfl⟩⟩
  | cons x xs ih =>
    rw [List.forall_mem_cons] at hf
    obtain ⟨_, mid, hx⟩ := hf.1 b
    obtain ⟨_, after, hxs⟩ := ih hf.2 mid
    exact ⟨(), after, gives_forM_cons.2 ⟨mid, hx, hxs⟩⟩

/-! ## Recording keys that were checked -/

theorem contains_of_record {t t' : Tracker} {key other : Key} (h : t.record key = .ok t')
    (hother : t'.contains other = true) : t.contains other = true ∨ other = key := by
  by_cases hsame : other = key
  · exact .inr hsame
  · have hkept := (Tracker.extends_record h).other other (by simpa using hsame)
    rw [Tracker.contains, hkept] at hother
    exact .inl hother

/-- Keys of which none is taken can be recorded one after another, if there is room for them. -/
theorem exists_recordAll {t t' : Tracker} {seen keys : List Key}
    (h : firstTaken? t seen keys = none) (hroom : t'.count + keys.length < Text.longSize)
    (ht' : ∀ key, t'.contains key = true → t.contains key = true ∨ key ∈ seen) :
    ∃ after, t'.recordAll keys = .ok after := by
  induction keys generalizing seen t' with
  | nil => exact ⟨t', rfl⟩
  | cons key keys ih =>
    rw [firstTaken?] at h
    split at h
    · cases h
    · next hnew =>
      rw [Bool.or_eq_true, List.contains_iff_mem, not_or] at hnew
      have hfresh : t'.contains key = false := by
        rw [← Bool.not_eq_true]
        intro hkey
        exact (ht' key hkey).elim hnew.1 hnew.2
      rw [List.length_cons] at hroom
      have hrecord := Tracker.record_eq_ok.2 ⟨hfresh, by omega, rfl⟩
      have hrest : t'.count + 1 + keys.length < Text.longSize := by omega
      obtain ⟨after, hafter⟩ := ih h hrest fun other hother => by
        rcases contains_of_record hrecord hother with hother | rfl
        · exact (ht' other hother).imp_right (List.mem_cons_of_mem key)
        · exact .inr List.mem_cons_self
      refine ⟨after, ?_⟩
      rw [Tracker.recordAll, hrecord]
      exact hafter

theorem succeeds_forM_record {keys : List Key} {t : Tracker}
    (h : b.tracker.recordAll keys = .ok t) :
    Succeeds (keys.forM fun key => updateTracker fun t => t.record key) b := by
  induction keys generalizing b with
  | nil => exact ⟨(), b, gives_pure.2 ⟨rfl, rfl⟩⟩
  | cons key keys ih =>
    obtain ⟨next, hnext, hrest⟩ := bind_eq_ok.1 h
    obtain ⟨_, after, hafter⟩ := @ih { b with tracker := next } hrest
    exact ⟨(), after, gives_forM_cons.2 ⟨_, gives_updateTracker.2 ⟨next, hnext, rfl⟩, hafter⟩⟩

/-! ## Calls -/

theorem atomicAt_emission (nothing : Bool) (g : Gate) (qubits : List Coord) (args : List Scalar) :
    AtomicAt (if nothing = true then pure () else do
      let indices ← ask fun b => b.indicesOf g qubits
      append g.name (indices.map .qubit) args) b := by
  split
  · exact (readsAt_pure ()).atomicAt
  · exact (readsAt_ask _).bind_atomicAt fun _ _ => atomicAt_append _ _ _

theorem atomicAt_gate (name : String) (qubits : List Coord) (args : List Scalar) :
    AtomicAt (gate name qubits args) b := by
  unfold gate
  refine (readsAt_ask _).bind_atomicAt fun g _ => ?_
  dsimp only
  split
  · exact atomicAt_emission _ _ _ _
  · exact atomicAt_emission _ _ _ _
  · exact atomicAt_emission _ _ _ _
  · exact atomicAt_throw_bind _ _

theorem atomicAt_gate2 (name : String) (pairs : List (Coord × Coord)) :
    AtomicAt (gate2 name pairs) b := by
  unfold gate2
  refine (readsAt_ask _).bind_atomicAt fun g _ => ?_
  dsimp only
  split
  · exact atomicAt_throw_bind _ _
  · exact atomicAt_emission _ _ _ _

theorem atomicAt_measure (qubits : List Coord) (basis : Basis) (keyOf : Coord → Key)
    (layer : String) : AtomicAt (measure qubits basis keyOf layer) b := by
  unfold measure
  dsimp only
  split
  · exact (readsAt_pure ()).atomicAt
  · refine (readsAt_ask _).bind_atomicAt fun indices _ => ?_
    refine readsAt_get.bind_atomicAt fun current hcurrent => ?_
    obtain ⟨rfl, -⟩ := gives_get.1 hcurrent
    split
    · exact atomicAt_throw_bind _ _
    · next hfree =>
      refine (readsAt_reserve _).bind_atomicAt fun _ hreserve => ?_
      have hroom := (gives_reserve.1 hreserve).1
      -- the keys were checked against the tracker that they are recorded in
      refine (atomicAt_append _ _ _).bind_succeeds fun _ mid hmid => ?_
      obtain ⟨i, -, rfl⟩ := gives_append.1 hmid
      have hnone := Option.eq_none_iff_forall_ne_some.2 hfree
      obtain ⟨t, ht⟩ := exists_recordAll hnone hroom fun key hkey => .inl hkey
      exact succeeds_forM_record ht

theorem atomicAt_measureProduct (product : PauliProduct) (key : Key) (flip : Option Scalar) :
    AtomicAt (measureProduct product key flip) b := by
  unfold measureProduct
  dsimp only
  split
  · exact atomicAt_updateTracker _
  · refine readsAt_get.bind_atomicAt fun current hcurrent => ?_
    obtain ⟨rfl, -⟩ := gives_get.1 hcurrent
    split
    · exact atomicAt_throw_bind _ _
    · next hfresh =>
      have hreads : ∀ term ∈ product.terms, ReadsAt (b := b) (do
          let index ← ask fun b => b.indexOf (some Gate.measureProduct.name) term.1
          pure (Target.pauli term.2 index)) := fun term _ =>
        (readsAt_ask _).bind fun _ _ => readsAt_pure _
      refine (readsAt_mapM hreads).bind_atomicAt fun factors _ => ?_
      refine (readsAt_reserve 1).bind_atomicAt fun _ hreserve => ?_
      have hrecord := Tracker.record_eq_ok.2
        ⟨by simpa using hfresh, (gives_reserve.1 hreserve).1, rfl⟩
      refine (atomicAt_append _ _ _).bind_succeeds fun _ mid hmid => ?_
      obtain ⟨i, -, rfl⟩ := gives_append.1 hmid
      exact ⟨(), _, gives_updateTracker.2 ⟨_, hrecord, rfl⟩⟩

theorem atomicAt_detector (keys : List Key) (options : DetectorOptions) :
    AtomicAt (detector keys options) b := by
  unfold detector
  refine (readsAt_ask _).bind_atomicAt fun _ _ => ?_
  refine readsAt_get.bind_atomicAt fun _ _ => ?_
  exact (readsAt_ask _).bind_atomicAt fun _ _ => atomicAt_append _ _ _

theorem atomicAt_includeObservable (keys : List Key) (index : Nat) :
    AtomicAt (includeObservable keys index) b := by
  unfold includeObservable
  refine (readsAt_ask _).bind_atomicAt fun targets _ => ?_
  split
  · exact (readsAt_pure ()).atomicAt
  · exact atomicAt_append _ _ _

/-- A controlled Pauli on a qubit is accepted, whatever controls it. -/
theorem succeeds_append_controlled (basis : Basis) (control : Target) (index : Nat) :
    Succeeds (append (Gate.controlled .z basis).name [control, .qubit index] []) b := by
  have hmake : Instruction.make (Gate.controlled .z basis).name [control, .qubit index] [] =
      .ok (controlledPauli basis control index) := by
    simp [Instruction.make, Instruction.targetFault?, Gate.kind, controlledPauli]
  exact ⟨(), _, gives_append.2 ⟨_, hmake, rfl⟩⟩

theorem atomicAt_classicalPaulis (keys : List Key) (qubits : List Coord) (basis : Basis) :
    AtomicAt (classicalPaulis keys qubits basis) b := by
  unfold classicalPaulis
  refine (readsAt_ask _).bind_atomicAt fun indices _ => ?_
  refine (readsAt_ask _).bind_atomicAt fun records _ => Succeeds.atomicAt ?_
  refine succeeds_forM (fun record _ b => ?_) b
  exact succeeds_forM (fun index _ b => succeeds_append_controlled basis record index) b

theorem atomicAt_appendRepeated (body : Circuit) (count : Nat) :
    AtomicAt (appendRepeated body count) b :=
  (atomicAt_updateTracker _).bind_succeeds fun _ _ _ => succeeds_modify _

end Build

/-- A call fails without a trace. -/
theorem Call.atomicAt (call : Call) (b : Builder) : Build.AtomicAt call.run b := by
  cases call with
  | gate name qubits args => exact Build.atomicAt_gate name qubits args
  | gate2 name pairs => exact Build.atomicAt_gate2 name pairs
  | tick => exact (Build.succeeds_modify _).atomicAt
  | shiftCoords offset time => exact (Build.succeeds_modify _).atomicAt
  | measure qubits basis keyOf layer => exact Build.atomicAt_measure qubits basis keyOf layer
  | measureProduct product key flip => exact Build.atomicAt_measureProduct product key flip
  | detector keys options => exact Build.atomicAt_detector keys options
  | includeObservable keys index => exact Build.atomicAt_includeObservable keys index
  | classicalPaulis keys qubits basis => exact Build.atomicAt_classicalPaulis keys qubits basis
  | group parts key => exact Build.atomicAt_updateTracker fun t => t.recordGroup parts key
  | obstacle key => exact Build.atomicAt_updateTracker fun t => t.recordObstacle key

namespace Workspace

theorem bench?_fork (w : Workspace) (s : Bench) (name : String) :
    (w.fork s name).bench? name = some { s with name, circuit := [] } :=
  bench?_put_self w { s with name, circuit := [] }

/-- A call that fails without a trace on every builder leaves all builders of a workspace and
the trackers that they share as they were. -/
theorem runOn_of_atomicAt {w w' : Workspace} {s : Bench} {call : Build Unit} {e : CircuitError}
    (hs : w.bench? s.name = some s) (hcall : ∀ b, Build.AtomicAt call b)
    (h : w.runOn s call = (.error e, w')) :
    w'.trackers = w.trackers ∧ ∀ name, w'.bench? name = w.bench? name := by
  have hrun : w.runOn s call = ((Build.outcome call (w.builderOn s)).1,
      { w with trackers :=
          w.trackers.set s.tracker (Build.outcome call (w.builderOn s)).2.tracker }.put
        { s with circuit := (Build.outcome call (w.builderOn s)).2.circuit }) := rfl
  rcases houtcome : Build.outcome call (w.builderOn s) with ⟨result, after⟩
  rw [hrun, houtcome] at h
  obtain ⟨rfl, rfl⟩ := Prod.mk.inj h
  obtain rfl := hcall (w.builderOn s) e after houtcome
  have htrackers : w.trackers.set s.tracker (w.builderOn s).tracker = w.trackers := by
    by_cases hlt : s.tracker < w.trackers.length
    · simp [builderOn, List.getElem?_eq_getElem hlt]
    · exact List.set_eq_of_length_le (Nat.le_of_not_lt hlt)
  rw [htrackers]
  refine ⟨rfl, fun name => ?_⟩
  by_cases hname : s.name = name
  · subst hname
    exact (bench?_put_self w s).trans hs.symm
  · exact bench?_put_of_ne w hname

end Workspace

/-! ## Results gained -/

namespace Target

theorem productGroups_append_of_combiners {s : List Target} (h : ∀ a ∈ s, a.isCombiner = true)
    (t : List Target) : productGroups (s ++ t) = productGroups t := by
  induction s with
  | nil => rfl
  | cons a s ih =>
    rw [List.forall_mem_cons] at h
    rw [List.cons_append, productGroups, if_pos h.1, ih h.2]

end Target

namespace Circuit

/-- The circuit ends in a product measurement of these arguments, with a factor that only combiners
follow, one at least. -/
def EndsOpen (c : Circuit) (args : List Scalar) : Prop :=
  ∃ last : Instruction, c.getLast? = some (.instruction last) ∧ last.kind = .measureProduct ∧
    Scalar.listNumEq last.args args = true ∧ last.targets.getLast?.any Target.isCombiner = true ∧
    ∃ t ∈ last.targets, t.isCombiner = false

/-- An instruction adds its results when it keeps them in merging. -/
theorem measurementCount_push {c : Circuit} {i : Instruction}
    (h : ∀ last, c.getLast? = some (.instruction last) → fuses last i = true →
      (last.join i).measurementCount = last.measurementCount + i.measurementCount) :
    measurementCount (c.push i) = measurementCount c + i.measurementCount := by
  have hsingle : ∀ i : Instruction, measurementCount [.instruction i] = i.measurementCount :=
    fun _ => rfl
  rw [push]
  obtain ⟨last, rest, hreverse, hfuses, hpush⟩ | ⟨-, hpush⟩ := pushReversed_cases c.reverse i
  · obtain rfl : c = rest.reverse ++ [.instruction last] := by
      rw [← List.reverse_cons, ← hreverse, List.reverse_reverse]
    rw [hpush, List.reverse_cons, measurementCount_append, measurementCount_append, hsingle,
      hsingle, h last (by simp) hfuses, Nat.add_assoc]
  · rw [hpush, List.reverse_cons, List.reverse_reverse, measurementCount_append, hsingle]

theorem measurementCount_push_measure (c : Circuit) {i : Instruction} (hi : i.kind = .measure) :
    measurementCount (c.push i) = measurementCount c + i.targets.length := by
  have hcount : ∀ j : Instruction, j.kind = .measure → j.measurementCount = j.targets.length := by
    intro j hj
    rw [Instruction.measurementCount, hj]
  rw [← hcount i hi]
  refine measurementCount_push fun last _ hfuses => ?_
  have hlast : last.kind = .measure := (kind_eq_of_fuses hfuses).trans hi
  rw [hcount _ hlast, hcount i hi, hcount (last.join i) hlast]
  exact List.length_append

theorem measurementCount_push_product {c : Circuit} {i : Instruction}
    (hi : i.kind = .measureProduct) (hhead : i.targets.head?.any Target.isCombiner = false)
    (hc : ¬ c.EndsOpen i.args) :
    measurementCount (c.push i) = measurementCount c + i.measurementCount := by
  have hcount : ∀ j : Instruction, j.kind = .measureProduct →
      j.measurementCount = (Target.productGroups j.targets).length := by
    intro j hj
    rw [Instruction.measurementCount, hj]
  refine measurementCount_push fun last hlast hfuses => ?_
  have hkind : last.kind = .measureProduct := (kind_eq_of_fuses hfuses).trans hi
  rw [hcount _ hkind, hcount i hi, hcount (last.join i) hkind, ← List.length_append]
  congr 1
  by_cases hends : last.targets.getLast?.any Target.isCombiner = true
  · have hall : ∀ t ∈ last.targets, t.isCombiner = true := by
      intro t ht
      by_contra hfactor
      have hargs : Scalar.listNumEq last.args i.args = true := (Bool.and_eq_true_iff.1 hfuses).2
      exact hc ⟨last, hlast, hkind, hargs, hends, t, ht, by simpa using hfactor⟩
    have hnone : Target.productGroups last.targets = [] := by
      have happend := Target.productGroups_append_of_combiners hall []
      rwa [List.append_nil] at happend
    rw [hnone, List.nil_append]
    exact Target.productGroups_append_of_combiners hall i.targets
  · exact Target.productGroups_append (by simpa using hends) hhead

end Circuit

namespace Build

variable {b b' : Builder}

/-- A builder has gained a result for every key: the circuit measures one group of targets for
each and counts as many results more as the tracker, which binds every key to its result. -/
structure GainsResults (b b' : Builder) (keys : List Key) (measured : List (List Target)) :
    Prop where
  appended : ∃ is : List Instruction, is.flatMap Instruction.targetGroups = measured ∧
    b'.circuit = is.foldl Circuit.push b.circuit
  length : measured.length = keys.length
  circuit : Circuit.measurementCount b'.circuit =
    Circuit.measurementCount b.circuit + keys.length
  count : b'.tracker.count = b.tracker.count + keys.length
  bound : ∀ k (h : k < keys.length),
    b'.tracker.find? keys[k] = some (some [b.tracker.count + k])

theorem find?_of_extends {t t' : Tracker} {keys : List Key} (h : Tracker.Extends t t' keys keys)
    (k : Nat) (hk : k < keys.length) : t'.find? keys[k] = some (some [t.count + k]) := by
  have hmem : keys[k] ∈ keys := List.getElem_mem hk
  rw [h.bound _ hmem, Tracker.placed, if_pos hmem, h.nodup.idxOf_getElem k hk]

theorem gainsResults_refl (b : Builder) : GainsResults b b [] [] where
  appended := ⟨[], rfl, rfl⟩
  length := rfl
  circuit := rfl
  count := rfl
  bound k h := absurd h (Nat.not_lt_zero k)

/-- A measurement of qubits gains a result for every qubit, in canonical order. -/
theorem gainsResults_measure {qubits : List Coord} {basis : Basis} {keyOf : Coord → Key}
    {layer : String} (h : Gives (measure qubits basis keyOf layer) b () b') :
    GainsResults b b' ((Coord.sort qubits).map fun q => .atLayer (keyOf q) layer)
      ((Coord.sort qubits).map fun q => [.qubit (indexIn b.layout q)]) := by
  rcases measure_spec h with ⟨hnone, rfl⟩ | ⟨i, t, hi, ht, rfl⟩
  · rw [hnone]
    exact gainsResults_refl b
  · obtain ⟨-, hkind, hi⟩ := Instruction.of_make_name hi
    have htargets : i.targets =
        (Coord.sort qubits).map fun q => .qubit (indexIn b.layout q) := by
      rw [hi, List.map_map]
      rfl
    have hextends := Tracker.extends_recordAll ht
    constructor
    · refine ⟨[i], ?_, rfl⟩
      rw [List.flatMap_singleton, Instruction.targetGroups_of_isSingle (by rw [hkind]; rfl),
        htargets, List.map_map]
      rfl
    · rw [List.length_map, List.length_map]
    · rw [Circuit.measurementCount_push_measure _ hkind, htargets, List.length_map, List.length_map]
    · exact hextends.count
    · exact find?_of_extends hextends

/-- The measurement of a product gains one result, unless the circuit ends in an open product. -/
theorem gainsResults_measureProduct {product : PauliProduct} {key : Key} {flip : Option Scalar}
    (h : Gives (measureProduct product key flip) b () b') (hidentity : product.isIdentity = false)
    (hc : ¬ b.circuit.EndsOpen flip.toList) :
    GainsResults b b' [key]
      [product.terms.map fun term => .pauli term.2 (indexIn b.layout term.1)] := by
  rcases measureProduct_spec h with ⟨hone, -⟩ | ⟨-, i, t, hi, ht, rfl⟩
  · rw [hidentity] at hone
    cases hone
  · obtain ⟨hne, hpauli⟩ := factors_spec hidentity b.layout
    obtain ⟨hkind, hgroups⟩ := Instruction.targetGroups_product hne hpauli hi
    have hcount : i.measurementCount = 1 := by
      rw [← Instruction.length_results, (Instruction.results_product hne hpauli hi).2.2]
      rfl
    obtain ⟨hchecked, -, hmade⟩ := Instruction.of_make_name hi
    have hargs : i.args = flip.toList := by rw [hmade]
    rw [← hargs] at hc
    obtain ⟨g, -, -, hgate, hfault⟩ := hchecked.exists_gate
    have hhead := ((Instruction.targetFault?_product_iff (.inl (hgate ▸ hkind))).1 hfault).1
    have hextends := Tracker.extends_record ht
    constructor
    · refine ⟨[i], ?_, rfl⟩
      rw [List.flatMap_singleton, hgroups]
    · rfl
    · rw [Circuit.measurementCount_push_product hkind hhead hc, hcount]
      rfl
    · exact hextends.count
    · exact find?_of_extends hextends

/-- The identity is not measured: its key is bound to no results. -/
theorem measureProduct_identity {product : PauliProduct} {key : Key} {flip : Option Scalar}
    (h : Gives (measureProduct product key flip) b () b') (hidentity : product.isIdentity = true) :
    b'.circuit = b.circuit ∧ b'.tracker.count = b.tracker.count ∧
      b'.tracker.find? key = some (some []) := by
  rcases measureProduct_spec h with ⟨-, t, ht, rfl⟩ | ⟨hother, -⟩
  · have hextends := Tracker.extends_recordGroup_nil ht
    refine ⟨rfl, hextends.count, ?_⟩
    rw [hextends.bound key List.mem_cons_self]
    rfl
  · rw [hidentity] at hother
    cases hother

/-- A call of its own, or the repetition of a loop body. -/
def IsPrimitive (call : Build Unit) : Prop :=
  (∃ c : Call, call = c.run) ∨ ∃ body count, call = appendRepeated body count

theorem IsPrimitive.atomicAt {call : Build Unit} (h : IsPrimitive call) (b : Builder) :
    AtomicAt call b := by
  rcases h with ⟨c, rfl⟩ | ⟨body, count, rfl⟩
  · exact c.atomicAt b
  · exact atomicAt_appendRepeated body count

/-- A primitive call that fails leaves its builder as it was, and in a workspace all builders and
the trackers that they share.  A measurement of qubits that succeeds gains a result in the circuit
for every key that it binds, in the order of the keys; the measurement of a product does so unless
the circuit ends in an open product, and the identity gains nothing. -/
theorem primitive_calls_atomic :
    (∀ call, IsPrimitive call → ∀ b, AtomicAt call b) ∧
    (∀ call, IsPrimitive call → ∀ (w w' : Workspace) (s : Bench) (e : CircuitError),
      w.bench? s.name = some s → w.runOn s call = (.error e, w') →
        w'.trackers = w.trackers ∧ ∀ name, w'.bench? name = w.bench? name) ∧
    (∀ (qubits : List Coord) (basis : Basis) (keyOf : Coord → Key) (layer : String)
      (b b' : Builder), Gives (measure qubits basis keyOf layer) b () b' →
        (∀ q ∈ Coord.sort qubits, (b.layout.get? q).isSome = true) ∧
        GainsResults b b' ((Coord.sort qubits).map fun q => .atLayer (keyOf q) layer)
          ((Coord.sort qubits).map fun q => [.qubit (indexIn b.layout q)])) ∧
    ∀ (product : PauliProduct) (key : Key) (flip : Option Scalar) (b b' : Builder),
      Gives (measureProduct product key flip) b () b' →
        (product.isIdentity = true → b'.circuit = b.circuit ∧
          b'.tracker.count = b.tracker.count ∧ b'.tracker.find? key = some (some [])) ∧
        (product.isIdentity = false → ¬ b.circuit.EndsOpen flip.toList → GainsResults b b' [key]
          [product.terms.map fun term => .pauli term.2 (indexIn b.layout term.1)]) := by
  refine ⟨fun call h b => h.atomicAt b, ?_, ?_, ?_⟩
  · intro call hcall w w' s e hs h
    exact Workspace.runOn_of_atomicAt hs hcall.atomicAt h
  · intro qubits basis keyOf layer b b' h
    exact ⟨known_of_measure h, gainsResults_measure h⟩
  · intro product key flip b b' h
    exact ⟨measureProduct_identity h, gainsResults_measureProduct h⟩

/-! ## Instances -/

theorem exists_gives {call : Build Unit} (h : (outcome call b).1.isOk = true) :
    ∃ b', Gives call b () b' := by
  rcases houtcome : outcome call b with ⟨e | _, b'⟩
  · rw [houtcome] at h
    cases h
  · exact ⟨b', houtcome⟩

/-- Two qubits next to each other, with a key that is taken and nothing written. -/
def twoQubits : Builder :=
  { (Builder.forQubits [.make 0 0, .make 1 0]).fork with
    tracker := ⟨[(.atLayer (.name "taken") "end", none)], 0⟩ }

/-- The bench of the two qubits. -/
def mainBench : Bench := ⟨"main", twoQubits.layout, [], 0⟩

/-- The bench of a fork, which shares the tracker. -/
def sideBench : Bench := { mainBench with name := "side", circuit := [] }

/-- Two qubits on a bench and on its fork. -/
def twoBenches : Workspace := (Workspace.single "main" twoQubits).fork mainBench "side"

/-- A parity check over the two qubits. -/
def twoQubitCheck : PauliProduct := .ofTerms [(.make 1 0, .z), (.make 0 0, .x)]

theorem primitive_calls_atomic_twoQubits :
    (∃ e w', twoBenches.bench? sideBench.name = some sideBench ∧
      twoBenches.runOn sideBench (measure [.make 1 0] .x (fun _ => .name "taken") "end") =
        (.error e, w') ∧
      w'.trackers = twoBenches.trackers ∧ ∀ name, w'.bench? name = twoBenches.bench? name) ∧
    (∃ b', Gives (measure [.make 0 0, .make 1 0] .x .coord "end") twoQubits () b' ∧
      GainsResults twoQubits b'
        ((Coord.sort [.make 0 0, .make 1 0]).map fun q => .atLayer (.coord q) "end")
        ((Coord.sort [.make 0 0, .make 1 0]).map
          fun q => [.qubit (indexIn twoQubits.layout q)])) ∧
    ∃ b', Gives (measureProduct twoQubitCheck (.name "check") none) twoQubits () b' ∧
      ¬ twoQubits.circuit.EndsOpen [] ∧
      GainsResults twoQubits b' [.name "check"]
        [twoQubitCheck.terms.map fun term => .pauli term.2 (indexIn twoQubits.layout term.1)] := by
  have hbench : twoBenches.bench? sideBench.name = some sideBench :=
    Workspace.bench?_fork (Workspace.single "main" twoQubits) mainBench "side"
  have hfails : (twoBenches.runOn sideBench
      (measure [.make 1 0] .x (fun _ => .name "taken") "end")).1.isOk = false := by
    decide +kernel
  have hsorted : Coord.sort [.make 0 0, .make 1 0] = [.make 0 0, .make 1 0] :=
    List.mergeSort_of_pairwise (by decide +kernel)
  have hmeasures : (outcome (measure [.make 0 0, .make 1 0] .x .coord "end") twoQubits).1.isOk =
      true := by
    unfold measure
    rw [hsorted]
    decide +kernel
  have hchecks : (outcome (measureProduct twoQubitCheck (.name "check") none) twoQubits).1.isOk =
      true := by
    decide +kernel
  have hidentity : twoQubitCheck.isIdentity = false := by decide +kernel
  have hclosed : ¬ twoQubits.circuit.EndsOpen [] := by
    rintro ⟨last, hlast, -⟩
    cases hlast
  obtain ⟨measured, hmeasured⟩ := exists_gives hmeasures
  obtain ⟨checked, hchecked⟩ := exists_gives hchecks
  refine ⟨?_, ⟨measured, hmeasured, (primitive_calls_atomic.2.2.1 _ _ _ _ _ _ hmeasured).2⟩,
    checked, hchecked, hclosed,
    (primitive_calls_atomic.2.2.2 _ _ _ _ _ hchecked).2 hidentity hclosed⟩
  rcases hrun : twoBenches.runOn sideBench
    (measure [.make 1 0] .x (fun _ => .name "taken") "end") with ⟨e | _, w'⟩
  · have hprimitive : IsPrimitive (measure [.make 1 0] .x (fun _ => .name "taken") "end") :=
      .inl ⟨.measure _ _ _ _, rfl⟩
    exact ⟨e, w', hbench, rfl,
      primitive_calls_atomic.2.1 _ hprimitive _ _ sideBench e hbench hrun⟩
  · rw [hrun] at hfails
    cases hfails

/-- Two qubits, after a product measurement with an open end was spliced in. -/
def openProduct : Builder :=
  { twoQubits with
    circuit := [.instruction ⟨Gate.measureProduct.name, [.pauli .x 0, .combiner], []⟩] }

/-- An open product takes in the next one, so that the tracker counts a result more and the circuit
does not. -/
theorem measureProduct_openProduct :
    ¬ ∀ (product : PauliProduct) (key : Key) (flip : Option Scalar) (b b' : Builder),
      Gives (measureProduct product key flip) b () b' →
        ∃ gained, Circuit.measurementCount b'.circuit =
            Circuit.measurementCount b.circuit + gained ∧
          b'.tracker.count = b.tracker.count + gained := by
  intro hall
  have hok : (outcome (measureProduct twoQubitCheck (.name "check") none) openProduct).1.isOk =
      true := by
    decide +kernel
  have hcounts : Circuit.measurementCount (outcome (measureProduct twoQubitCheck (.name "check")
        none) openProduct).2.circuit = Circuit.measurementCount openProduct.circuit ∧
      (outcome (measureProduct twoQubitCheck (.name "check") none) openProduct).2.tracker.count =
        openProduct.tracker.count + 1 := by
    decide +kernel
  obtain ⟨b', hgives⟩ := exists_gives hok
  obtain ⟨gained, hcircuit, hcount⟩ := hall _ _ _ _ b' hgives
  rw [hgives] at hcounts
  dsimp only at hcounts
  omega

end Build

end StabCircuit
