import Mathlib.Algebra.Ring.Parity
import StabCircuit.Proofs.Record.Tracking

/-!
# Resolving keys along a run

A run of the tracker is a list of calls, some of which may be refused; it ends where a
count overflows.  In every state of a run the keys are bound to ascending lists of results
that happened, a list of keys resolves to the results that an odd number of its keys are
bound to, and a group resolves like its parts.  Each call binds one fresh key or moves
results without ever identifying two of them, so that what holds of the results of bound
keys goes on to hold.
-/

namespace StabCircuit

namespace Tracker

variable {t t' : Tracker} {key : Key} {keys keys' : List Key} {indices : List Nat}

/-! ## What keys resolve to -/

/-- A key is bound to results, not to an obstacle. -/
def Resolves (t : Tracker) (key : Key) : Prop := ∃ indices, t.find? key = some (some indices)

theorem indicesOf_eq_ok : t.indicesOf key = .ok indices ↔ t.find? key = some (some indices) := by
  refine ⟨find?_of_indicesOf, fun h => ?_⟩
  rw [indicesOf, h]

theorem exists_toggleKeys_eq_ok {found : OrderedSet Nat} :
    (∃ result, t.toggleKeys found keys = .ok result) ↔ ∀ key ∈ keys, t.Resolves key := by
  induction keys generalizing found with
  | nil => simp [toggleKeys]
  | cons key keys ih =>
    rw [List.forall_mem_cons, toggleKeys]
    cases hkey : t.indicesOf key with
    | error e =>
      have hnone : ¬ t.Resolves key := by
        rintro ⟨indices, hfind⟩
        rw [indicesOf_eq_ok.2 hfind] at hkey
        cases hkey
      simp [hnone]
    | ok indices =>
      have hsome : t.Resolves key := ⟨indices, indicesOf_eq_ok.1 hkey⟩
      simp [hsome, ih]

/-- Keys that are all bound to results resolve, to the symmetric difference of their sets. -/
theorem indices_eq_ok (ht : t.IsBounded) :
    t.indices keys = .ok indices ↔
      (∀ key ∈ keys, t.Resolves key) ∧ indices = (t.parity keys).sort := by
  constructor
  · intro h
    obtain ⟨result, hresult, -⟩ := map_eq_ok.1 h
    exact ⟨exists_toggleKeys_eq_ok.1 ⟨result, hresult⟩, indices_eq ht h⟩
  · rintro ⟨hresolves, rfl⟩
    obtain ⟨result, hresult⟩ := exists_toggleKeys_eq_ok.2 hresolves
    have hok : t.indices keys = .ok (OrderedSet.toList result) := map_eq_ok.2 ⟨result, hresult, rfl⟩
    rw [hok, indices_eq ht hok]

/-- The number of keys of a list that are bound to a result. -/
def occurrences (t : Tracker) (keys : List Key) (index : Nat) : Nat :=
  keys.countP fun key => index ∈ t.indexSet key

theorem mem_parity {index : Nat} : index ∈ t.parity keys ↔ Odd (t.occurrences keys index) := by
  induction keys with
  | nil => simp [parity, occurrences]
  | cons key keys ih =>
    have hstep : t.parity (key :: keys) = symmDiff (t.indexSet key) (t.parity keys) := rfl
    rw [hstep, Finset.mem_symmDiff, ih, occurrences, occurrences, List.countP_cons]
    by_cases hkey : index ∈ t.indexSet key
    · simp [hkey, Nat.odd_add_one]
    · simp [hkey]

/-- Keys resolve to the ascending list of the results that occur an odd number of times. -/
theorem indices_eq_ok_iff_odd (ht : t.IsBounded) :
    t.indices keys = .ok indices ↔
      (∀ key ∈ keys, t.Resolves key) ∧ indices.Pairwise (· < ·) ∧
        ∀ index, index ∈ indices ↔ Odd (t.occurrences keys index) := by
  rw [indices_eq_ok ht]
  refine and_congr_right fun _ => ?_
  constructor
  · rintro rfl
    refine ⟨(t.parity keys).sortedLT_sort.pairwise, fun index => ?_⟩
    rw [Finset.mem_sort, mem_parity]
  · rintro ⟨hsorted, hmem⟩
    have hset : indices.toFinset = t.parity keys := by
      ext index
      rw [List.mem_toFinset, hmem, mem_parity]
    rw [← hset]
    exact ((List.toFinset_sort (· ≤ ·) (hsorted.imp Nat.ne_of_lt)).2
      (hsorted.imp Nat.le_of_lt)).symm

theorem occurrences_perm (h : keys.Perm keys') (index : Nat) :
    t.occurrences keys' index = t.occurrences keys index :=
  (h.countP_eq _).symm

/-- The order of keys does not matter. -/
theorem indices_perm (ht : t.IsBounded) (h : keys.Perm keys') :
    t.indices keys' = .ok indices ↔ t.indices keys = .ok indices := by
  simp only [indices_eq_ok_iff_odd ht, occurrences_perm h, h.mem_iff]

/-- A key that occurs twice more changes nothing. -/
theorem indices_twice (ht : t.IsBounded) (hkey : t.Resolves key)
    (h : keys'.Perm (key :: key :: keys)) :
    t.indices keys' = .ok indices ↔ t.indices keys = .ok indices := by
  have hodd : ∀ index, Odd (t.occurrences (key :: key :: keys) index) ↔
      Odd (t.occurrences keys index) := by
    intro index
    rw [← mem_parity, ← mem_parity]
    have htwice : t.parity (key :: key :: keys) =
        symmDiff (t.indexSet key) (symmDiff (t.indexSet key) (t.parity keys)) := rfl
    rw [htwice, symmDiff_symmDiff_cancel_left]
  rw [indices_perm ht h.symm, indices_eq_ok_iff_odd ht, indices_eq_ok_iff_odd ht]
  simp only [hodd, List.forall_mem_cons, hkey, true_and]

/-! ## Record targets -/

theorem lt_of_indices (ht : t.IsBounded) (h : t.indices keys = .ok indices) :
    ∀ index ∈ indices, index < t.count := by
  intro index hindex
  rw [indices_eq ht h, Finset.mem_sort] at hindex
  exact lt_of_mem_parity ht hindex

/-- The targets for keys are those of the results they resolve to, if all are near enough. -/
theorem recordTargets_eq_ok (ht : t.IsBounded) {targets : List Target} :
    t.recordTargets keys = .ok targets ↔
      ∃ indices, t.indices keys = .ok indices ∧
        (∀ index ∈ indices, t.count - index < Text.halfWord) ∧
        targets = indices.map fun (index : Nat) => .record (index - t.count : Int) := by
  refine bind_eq_ok.trans (exists_congr fun indices => and_congr_right fun hindices => ?_)
  refine mapM_eq_ok_iff_of_eq_ok fun index hindex target => ?_
  have hpast : index ≤ t.count := Nat.le_of_lt (lt_of_indices ht hindices index hindex)
  rw [targetOf_eq_ok, and_iff_right hpast]

/-- The targets for keys point to results before the present, the earlier ones first. -/
theorem recordTargets_offsets (ht : t.IsBounded) {targets : List Target}
    (h : t.recordTargets keys = .ok targets) :
    ∃ offsets : List Int, targets = offsets.map .record ∧ offsets.Pairwise (· < ·) ∧
      ∀ offset ∈ offsets, -t.count ≤ offset ∧ offset ≤ -1 := by
  obtain ⟨indices, hindices, -, rfl⟩ := (recordTargets_eq_ok ht).1 h
  have hsorted := ((indices_eq_ok_iff_odd ht).1 hindices).2.1
  have hhappened := lt_of_indices ht hindices
  refine ⟨indices.map fun (index : Nat) => (index - t.count : Int), ?_, ?_, ?_⟩
  · rw [List.map_map]
    rfl
  · exact List.pairwise_map.2 (hsorted.imp fun hlt => by omega)
  · intro offset hoffset
    obtain ⟨index, hindex, rfl⟩ := List.mem_map.1 hoffset
    have hlt := hhappened index hindex
    omega

/-! ## Counts that do not overflow -/

theorem isOverflow_of_indicesOf {e : CircuitError} (h : t.indicesOf key = .error e) :
    e.isOverflow = false := by
  unfold indicesOf at h
  split at h
  · cases h
    rfl
  · cases h
    rfl
  · cases h

theorem isOverflow_of_toggleKeys {found : OrderedSet Nat} {e : CircuitError}
    (h : t.toggleKeys found keys = .error e) : e.isOverflow = false := by
  induction keys generalizing found with
  | nil => cases h
  | cons key keys ih =>
    rw [toggleKeys] at h
    cases hkey : t.indicesOf key with
    | error e' =>
      rw [hkey] at h
      cases h
      exact isOverflow_of_indicesOf hkey
    | ok indices =>
      rw [hkey] at h
      exact ih h

/-- Resolving keys fails for what they are bound to only. -/
theorem isOverflow_of_indices {e : CircuitError} (h : t.indices keys = .error e) :
    e.isOverflow = false :=
  isOverflow_of_toggleKeys (map_eq_error.1 h)

/-- Counting back from the present to the results that keys resolve to never goes below zero. -/
theorem isOverflow_of_recordTargets (ht : t.IsBounded) {e : CircuitError}
    (h : t.recordTargets keys = .error e) : e.isOverflow = false := by
  obtain hindices | ⟨indices, hindices, h⟩ := bind_eq_error.1 h
  · exact isOverflow_of_indices hindices
  · obtain ⟨index, hindex, hfails⟩ := exists_of_mapM_eq_error h
    have hpast : index ≤ t.count := Nat.le_of_lt (lt_of_indices ht hindices index hindex)
    obtain hback | ⟨back, -, hfar⟩ := bind_eq_error.1 hfails
    · rw [Count.subtract_eq_ok.2 ⟨hpast, rfl⟩] at hback
      cases hback
    · split at hfar
      · cases hfar
      · cases hfar
        rfl

/-! ## Calls -/

/-- A call that may change the tracker. -/
inductive Call where
  | record (key : Key)
  | group (parts : List Key) (key : Key)
  | obstacle (key : Key)
  | repeatRecent (body times : Nat)

/-- The tracker after a call. -/
def Call.run (t : Tracker) : Call → Except CircuitError Tracker
  | .record key => t.record key
  | .group parts key => t.recordGroup parts key
  | .obstacle key => t.recordObstacle key
  | .repeatRecent body times => t.repeatRecent body times

/-- The tracker after a call: one that is refused leaves it as it is, and one whose counts overflow
ends the run. -/
def attempt (t : Tracker) (call : Call) : Option Tracker :=
  match call.run t with
  | .ok t' => some t'
  | .error e => if e.isOverflow then none else some t

/-- The state that a run reaches. -/
def after (calls : List Call) : Option Tracker := calls.foldlM attempt .empty

/-- A call would be accepted, but for the number of results that it leaves. -/
def Overflows (t : Tracker) : Call → Prop
  | .record key => t.contains key = false ∧ Text.longSize ≤ t.count + 1
  | .group _ _ => False
  | .obstacle _ => False
  | .repeatRecent body times =>
    0 < body ∧ 0 < times ∧ body ≤ t.count ∧ Text.longSize ≤ t.count + (times - 1) * body

theorem isOverflow_of_bind {value : Option (List Nat)} {e : CircuitError}
    (h : t.bind key value = .error e) : e.isOverflow = false := by
  unfold Tracker.bind at h
  split at h
  · cases h
    rfl
  · cases h

theorem isOverflow_of_recordGroup {parts : List Key} {e : CircuitError}
    (h : t.recordGroup parts key = .error e) : e.isOverflow = false := by
  obtain hindices | ⟨indices, -, hbind⟩ := bind_eq_error.1 h
  · exact isOverflow_of_indices hindices
  · exact isOverflow_of_bind hbind

theorem record_overflows_iff :
    (∃ e, t.record key = .error e ∧ e.isOverflow = true) ↔ t.Overflows (.record key) := by
  unfold record Tracker.bind Count.add
  cases hkey : t.contains key with
  | true => simp [Except.bind, Overflows, hkey, CircuitError.isOverflow]
  | false =>
    rw [if_neg Bool.false_ne_true, Except.bind]
    split
    · next hfits => simp [Except.map, Overflows, hfits]
    · next hfull =>
      simp [Except.map, Overflows, hkey, CircuitError.isOverflow, Nat.le_of_not_lt hfull]

theorem repeatRecent_overflows_iff {body times : Nat} :
    (∃ e, t.repeatRecent body times = .error e ∧ e.isOverflow = true) ↔
      t.Overflows (.repeatRecent body times) := by
  rw [Overflows, repeatRecent]
  split
  · next hnone => simp [hnone]
  split
  · next hzero => simp [hzero, CircuitError.isOverflow]
  split
  · next hbeyond => simp [Nat.not_le.2 hbeyond, CircuitError.isOverflow]
  · next hbody htimes hcount =>
    rw [and_iff_right (Nat.pos_of_ne_zero hbody), and_iff_right (Nat.pos_of_ne_zero htimes),
      and_iff_right (Nat.le_of_not_lt hcount)]
    unfold Count.multiply Count.add
    split
    · rw [Except.bind]
      split
      · next hfits => simp [Except.map, hfits]
      · next hfull => simp [Except.map, CircuitError.isOverflow, Nat.le_of_not_lt hfull]
    · next hfull =>
      have hsum : Text.longSize ≤ t.count + (times - 1) * body :=
        (Nat.le_of_not_lt hfull).trans (Nat.le_add_left _ _)
      simp [Except.bind, CircuitError.isOverflow, hsum]

theorem attempt_eq_none {call : Call} :
    t.attempt call = none ↔ ∃ e, call.run t = .error e ∧ e.isOverflow = true := by
  unfold attempt
  cases call.run t <;> simp

/-- A call ends the run exactly when it would leave more results than a count holds. -/
theorem attempt_eq_none_iff {call : Call} : t.attempt call = none ↔ t.Overflows call := by
  rw [attempt_eq_none]
  cases call with
  | record key => exact record_overflows_iff
  | group parts key =>
    refine iff_of_false (fun ⟨e, h, he⟩ => ?_) id
    exact Bool.false_ne_true ((isOverflow_of_recordGroup h).symm.trans he)
  | obstacle key =>
    refine iff_of_false (fun ⟨e, h, he⟩ => ?_) id
    exact Bool.false_ne_true ((isOverflow_of_bind h).symm.trans he)
  | repeatRecent body times => exact repeatRecent_overflows_iff

/-- A record of as many results as a count holds takes in no other. -/
example : after [.record (.name "a"), .repeatRecent 1 (Text.longSize - 1), .record (.name "b")] =
    none := by
  decide +kernel

/-- The state after a call that does not end the run. -/
theorem eq_or_run_of_attempt {call : Call} (h : t.attempt call = some t') :
    t' = t ∨ call.run t = .ok t' := by
  unfold attempt at h
  cases hrun : call.run t with
  | ok next =>
    rw [hrun] at h
    exact .inr (congrArg Except.ok (Option.some.inj h))
  | error e =>
    simp only [hrun] at h
    split at h
    · cases h
    · exact .inl (Option.some.inj h).symm

/-- A tracker has bound one fresh key, to results that happened by now or to an obstacle. -/
structure Binds (t t' : Tracker) (key : Key) (value : Option (List Nat)) : Prop where
  fresh : t.find? key = none
  count : t.count ≤ t'.count
  find : ∀ other, t'.find? other = if other = key then some value else t.find? other
  bounded : ∀ indices, value = some indices →
    indices.Pairwise (· < ·) ∧ ∀ index ∈ indices, index < t'.count

theorem binds_of_bind {value : Option (List Nat)} (h : t.bind key value = .ok t')
    (hvalue : ∀ indices, value = some indices →
      indices.Pairwise (· < ·) ∧ ∀ index ∈ indices, index < t.count) : Binds t t' key value := by
  obtain ⟨hfresh, hcount, hfind⟩ := find?_bind h
  exact ⟨hfresh, hcount.ge, hfind, hcount ▸ hvalue⟩

theorem binds_of_record (h : t.record key = .ok t') : Binds t t' key (some [t.count]) := by
  obtain ⟨hfresh, hcount, -, hfind⟩ := find?_record h
  refine ⟨hfresh, ?_, hfind, ?_⟩
  · simp [hcount]
  · rintro indices hindices
    cases hindices
    simp [hcount]

theorem binds_of_recordGroup (ht : t.IsBounded) {parts : List Key}
    (h : t.recordGroup parts key = .ok t') :
    (∀ part ∈ parts, t.Resolves part) ∧ Binds t t' key (some (t.parity parts).sort) := by
  obtain ⟨indices, hindices, hbind⟩ := bind_eq_ok.1 h
  obtain ⟨hresolves, rfl⟩ := (indices_eq_ok ht).1 hindices
  refine ⟨hresolves, binds_of_bind hbind ?_⟩
  rintro indices hvalue
  cases hvalue
  exact ⟨(t.parity parts).sortedLT_sort.pairwise,
    fun index hindex => lt_of_mem_parity ht ((Finset.mem_sort _).1 hindex)⟩

/-- A call leaves the tracker as it is, binds one fresh key or moves the recent results. -/
theorem attempt_cases (ht : t.IsBounded) {call : Call} (h : t.attempt call = some t') :
    t' = t ∨ (∃ key value, Binds t t' key value) ∨ ∃ start shift, t' = t.shiftFrom start shift := by
  rcases eq_or_run_of_attempt h with hsame | hrun
  · exact .inl hsame
  · cases call with
    | record key => exact .inr (.inl ⟨key, _, binds_of_record hrun⟩)
    | group parts key => exact .inr (.inl ⟨key, _, (binds_of_recordGroup ht hrun).2⟩)
    | obstacle key => exact .inr (.inl ⟨key, none, binds_of_bind hrun (by simp)⟩)
    | repeatRecent body times =>
      obtain ⟨-, hsame⟩ | ⟨-, -, -, hshift⟩ := repeatRecent_cases hrun
      · exact .inl hsame
      · exact .inr (.inr ⟨_, _, hshift⟩)

/-! ## Results along a run -/

theorem Binds.isBounded {value : Option (List Nat)} (h : Binds t t' key value)
    (ht : t.IsBounded) : t'.IsBounded := by
  intro other indices hother
  rw [h.find] at hother
  split at hother
  · exact h.bounded indices (Option.some.inj hother)
  · obtain ⟨hsorted, hlt⟩ := ht other indices hother
    exact ⟨hsorted, fun index hindex => (hlt index hindex).trans_le h.count⟩

theorem IsBounded.attempt (ht : t.IsBounded) {call : Call} (h : t.attempt call = some t') :
    t'.IsBounded := by
  obtain rfl | ⟨key, value, hbinds⟩ | ⟨start, shift, rfl⟩ := attempt_cases ht h
  · exact ht
  · exact hbinds.isBounded ht
  · exact ht.shiftFrom start shift

/-- A count that fits goes on to fit. -/
theorem fits_of_attempt (ht : t.count < Text.longSize) {call : Call}
    (h : t.attempt call = some t') : t'.count < Text.longSize := by
  rcases eq_or_run_of_attempt h with rfl | hrun
  · exact ht
  · cases call with
    | record key => exact (find?_record hrun).2.2.1
    | group parts key =>
      obtain ⟨indices, -, hbind⟩ := bind_eq_ok.1 hrun
      rwa [(find?_bind hbind).2.1]
    | obstacle key => rwa [(find?_bind hrun).2.1]
    | repeatRecent body times =>
      obtain ⟨-, rfl⟩ | ⟨-, -, hfits, rfl⟩ := repeatRecent_cases hrun
      · exact ht
      · exact hfits

/-- Bound keys keep what they are bound to. -/
theorem Binds.find?_of_resolves {value : Option (List Nat)} (h : Binds t t' key value) {other : Key}
    (hother : t.Resolves other) : t'.find? other = t.find? other := by
  obtain ⟨indices, hindices⟩ := hother
  rw [h.find, if_neg]
  rintro rfl
  rw [h.fresh] at hindices
  cases hindices

theorem Binds.resolves {value : Option (List Nat)} (h : Binds t t' key value) {other : Key}
    (hother : t.Resolves other) : t'.Resolves other := by
  rw [Resolves, h.find?_of_resolves hother]
  exact hother

theorem Binds.indexSet_of_resolves {value : Option (List Nat)} (h : Binds t t' key value)
    {other : Key} (hother : t.Resolves other) : t'.indexSet other = t.indexSet other := by
  rw [indexSet, indexSet, h.find?_of_resolves hother]

theorem parity_congr (h : ∀ key ∈ keys, t'.indexSet key = t.indexSet key) :
    t'.parity keys = t.parity keys := by
  induction keys with
  | nil => rfl
  | cons key keys ih =>
    rw [List.forall_mem_cons] at h
    have hrest : t'.parity keys = t.parity keys := ih h.2
    exact congrArg₂ symmDiff h.1 hrest

theorem Resolves.shiftFrom (h : t.Resolves key) (start shift : Nat) :
    (t.shiftFrom start shift).Resolves key := by
  obtain ⟨indices, hindices⟩ := h
  rw [Resolves, find?_shiftFrom, hindices]
  exact ⟨_, rfl⟩

/-- Where a result goes when later ones are moved on. -/
def moved (start shift index : Nat) : Nat := if start ≤ index then index + shift else index

theorem moved_injective (start shift : Nat) : Function.Injective (moved start shift) := by
  intro a b h
  unfold moved at h
  split at h <;> split at h <;> omega

theorem indexSet_shiftFrom (t : Tracker) (start shift : Nat) (key : Key) :
    (t.shiftFrom start shift).indexSet key = (t.indexSet key).image (moved start shift) := by
  unfold indexSet
  rw [find?_shiftFrom]
  cases t.find? key with
  | none => rfl
  | some value =>
    cases value with
    | none => rfl
    | some indices =>
      ext index
      simp [moved]

theorem parity_shiftFrom (t : Tracker) (start shift : Nat) (keys : List Key) :
    (t.shiftFrom start shift).parity keys = (t.parity keys).image (moved start shift) := by
  induction keys with
  | nil => rfl
  | cons key keys ih =>
    calc
      (t.shiftFrom start shift).parity (key :: keys)
      _ = symmDiff ((t.indexSet key).image (moved start shift))
            ((t.parity keys).image (moved start shift)) :=
        congrArg₂ symmDiff (indexSet_shiftFrom t start shift key) ih
      _ = (t.parity (key :: keys)).image (moved start shift) :=
        (Finset.image_symmDiff _ _ (moved_injective start shift)).symm

/-- A group and its parts are bound to the same results. -/
structure IsGroup (t : Tracker) (parts : List Key) (key : Key) : Prop where
  known : ∀ part ∈ parts, t.Resolves part
  resolves : t.Resolves key
  same : t.indexSet key = t.parity parts

theorem isGroup_of_recordGroup (ht : t.IsBounded) {parts : List Key}
    (h : t.recordGroup parts key = .ok t') : IsGroup t' parts key := by
  obtain ⟨hparts, hbinds⟩ := binds_of_recordGroup ht h
  have hkey : t'.find? key = some (some (t.parity parts).sort) := by
    rw [hbinds.find, if_pos rfl]
  refine ⟨fun part hpart => hbinds.resolves (hparts part hpart), ⟨_, hkey⟩, ?_⟩
  rw [indexSet_of_find? hkey, Finset.sort_toFinset,
    parity_congr fun part hpart => hbinds.indexSet_of_resolves (hparts part hpart)]

theorem IsGroup.attempt {parts : List Key} (h : IsGroup t parts key) (ht : t.IsBounded)
    {call : Call} (hcall : t.attempt call = some t') : IsGroup t' parts key := by
  obtain rfl | ⟨fresh, value, hbinds⟩ | ⟨start, shift, rfl⟩ := attempt_cases ht hcall
  · exact h
  · refine ⟨fun part hpart => hbinds.resolves (h.known part hpart), hbinds.resolves h.resolves, ?_⟩
    rw [hbinds.indexSet_of_resolves h.resolves, h.same,
      parity_congr fun part hpart => hbinds.indexSet_of_resolves (h.known part hpart)]
  · refine ⟨fun part hpart => (h.known part hpart).shiftFrom start shift,
      h.resolves.shiftFrom start shift, ?_⟩
    rw [indexSet_shiftFrom, parity_shiftFrom, h.same]

theorem IsGroup.exists_indices {parts : List Key} (h : IsGroup t parts key) (ht : t.IsBounded) :
    ∃ indices, t.indices [key] = .ok indices ∧ t.indices parts = .ok indices := by
  have hsingle : t.parity [key] = t.parity parts := by
    rw [← h.same]
    exact symmDiff_bot _
  refine ⟨(t.parity parts).sort, (indices_eq_ok ht).2 ⟨?_, ?_⟩, (indices_eq_ok ht).2 ⟨h.known, rfl⟩⟩
  · simpa using h.resolves
  · rw [hsingle]

theorem isBounded_empty : empty.IsBounded := follows_empty.bounded

/-- What no call breaks holds at the end of a run. -/
theorem invariant_of_run {p : Tracker → Prop}
    (hcall : ∀ t t' call, p t → t.attempt call = some t' → p t') {calls : List Call} (ht : p t)
    (h : calls.foldlM attempt t = some t') : p t' := by
  induction calls generalizing t with
  | nil =>
    cases h
    exact ht
  | cons call calls ih =>
    rw [List.foldlM_cons] at h
    obtain ⟨next, hnext, hrest⟩ := Option.bind_eq_some_iff.1 h
    exact ih (hcall t next call ht hnext) hrest

theorem IsBounded.run (ht : t.IsBounded) {calls : List Call}
    (h : calls.foldlM Tracker.attempt t = some t') : t'.IsBounded :=
  invariant_of_run (fun _ _ _ ht hcall => ht.attempt hcall) ht h

theorem IsGroup.run {parts : List Key} (h : IsGroup t parts key) (ht : t.IsBounded)
    {calls : List Call} (hrun : calls.foldlM Tracker.attempt t = some t') :
    IsGroup t' parts key :=
  (invariant_of_run (p := fun t => IsGroup t parts key ∧ t.IsBounded)
    (fun _ _ _ ht hcall => ⟨ht.1.attempt ht.2 hcall, ht.2.attempt hcall⟩) ⟨h, ht⟩ hrun).1

/-- How a tracker resolves keys. -/
structure IsResolving (t : Tracker) : Prop where
  /-- Keys are bound to ascending lists of results that happened. -/
  bounded : t.IsBounded
  /-- The number of results, and so every index, is a 64-bit number. -/
  fits : t.count < Text.longSize
  /-- Keys resolve to the results that occur an odd number of times. -/
  odd : ∀ keys indices, t.indices keys = .ok indices ↔
    (∀ key ∈ keys, t.Resolves key) ∧ indices.Pairwise (· < ·) ∧
      ∀ index, index ∈ indices ↔ Odd (t.occurrences keys index)
  /-- The order of keys does not matter. -/
  perm : ∀ keys keys' indices, keys.Perm keys' →
    (t.indices keys' = .ok indices ↔ t.indices keys = .ok indices)
  /-- A key put in twice, wherever, does not matter. -/
  twice : ∀ key keys keys' indices, t.Resolves key → keys'.Perm (key :: key :: keys) →
    (t.indices keys' = .ok indices ↔ t.indices keys = .ok indices)
  /-- Counting back from the present never goes below zero. -/
  happened : ∀ keys e, t.recordTargets keys = .error e → e.isOverflow = false
  /-- There are targets exactly for keys that resolve to results near enough. -/
  near : ∀ keys targets, t.recordTargets keys = .ok targets ↔
    ∃ indices, t.indices keys = .ok indices ∧
      (∀ index ∈ indices, t.count - index < Text.halfWord) ∧
      targets = indices.map fun (index : Nat) => .record (index - t.count : Int)
  /-- Targets point to results before the present, the earlier ones first. -/
  offsets : ∀ keys targets, t.recordTargets keys = .ok targets →
    ∃ offsets : List Int, targets = offsets.map .record ∧ offsets.Pairwise (· < ·) ∧
      ∀ offset ∈ offsets, -t.count ≤ offset ∧ offset ≤ -1

theorem IsBounded.isResolving (ht : t.IsBounded) (hfits : t.count < Text.longSize) :
    t.IsResolving where
  bounded := ht
  fits := hfits
  odd := fun _ _ => indices_eq_ok_iff_odd ht
  perm := fun _ _ _ h => indices_perm ht h
  twice := fun _ _ _ _ hkey h => indices_twice ht hkey h
  happened := fun _ _ h => isOverflow_of_recordTargets ht h
  near := fun _ _ => recordTargets_eq_ok ht
  offsets := fun _ _ h => recordTargets_offsets ht h

/-- A round that compares two results with a group, has one call refused and is repeated. -/
def comparedRound : List Call :=
  [.record (.name "a"), .record (.name "b"), .group [.name "a", .name "b"] (.name "ab"),
    .record (.name "a"), .obstacle (.name "c"), .repeatRecent 1 3]

end Tracker

end StabCircuit
