import Mathlib.Data.Finset.Sort
import Mathlib.Data.Finset.SymmDiff
import StabCircuit.Proofs.Support.OrderedMaps
import StabCircuit.Proofs.Support.Results
import StabCircuit.Record.Tracker

/-!
# Keeping track of a record

A tracker follows a record, the list of all results with the key that each was
measured for, when it has counted them, binds every key to results that happened,
and binds the key of a result to the last result measured for it.  Recording,
grouping, obstacles and repetition keep the tracker following.  Keys resolve to
the symmetric difference of their index sets.
-/

namespace StabCircuit

/-! ## Counts -/

namespace Count

variable {a b c : Nat}

theorem add_eq_ok : add a b = .ok c ↔ a + b < Text.longSize ∧ a + b = c := by
  unfold add
  split <;> simp [*]

theorem subtract_eq_ok : subtract a b = .ok c ↔ b ≤ a ∧ a - b = c := by
  unfold subtract
  split <;> simp [*]

theorem multiply_eq_ok : multiply a b = .ok c ↔ a * b < Text.longSize ∧ a * b = c := by
  unfold multiply
  split <;> simp [*]

end Count

namespace Tracker

/-! ## Symmetric differences -/

/-- The set of indices that a key is bound to. -/
def indexSet (t : Tracker) (key : Key) : Finset Nat := ((t.find? key).join.getD []).toFinset

/-- The symmetric difference of the index sets of keys. -/
def parity (t : Tracker) (keys : List Key) : Finset Nat :=
  keys.foldr (fun key rest => symmDiff (t.indexSet key) rest) ∅

theorem indexSet_of_find? {t : Tracker} {key : Key} {indices : List Nat}
    (h : t.find? key = some (some indices)) : t.indexSet key = indices.toFinset := by
  simp [indexSet, h]

theorem mem_keys_toggle {indices : OrderedSet Nat} {index other : Nat} :
    other ∈ (toggle indices index).keys ↔
      (other = index ∧ index ∉ indices.keys) ∨ (other ≠ index ∧ other ∈ indices.keys) := by
  rw [OrderedMap.mem_keys_iff, toggle, OrderedMap.get?_alter, OrderedMap.mem_keys_iff,
    OrderedMap.mem_keys_iff]
  by_cases hsame : index = other
  · subst hsame
    cases indices.get? index <;> simp
  · simp [hsame, Ne.symm hsame]

theorem toFinset_toggle (indices : OrderedSet Nat) (index : Nat) :
    (toggle indices index).keys.toFinset = symmDiff indices.keys.toFinset {index} := by
  ext other
  rw [List.mem_toFinset, mem_keys_toggle, Finset.mem_symmDiff, List.mem_toFinset,
    Finset.mem_singleton]
  constructor
  · rintro (⟨rfl, h⟩ | ⟨hne, h⟩)
    · exact .inr ⟨rfl, h⟩
    · exact .inl ⟨h, hne⟩
  · rintro (⟨h, hne⟩ | ⟨rfl, h⟩)
    · exact .inr ⟨hne, h⟩
    · exact .inl ⟨rfl, h⟩

theorem toFinset_foldl_toggle {found : List Nat} (hfound : found.Nodup) (indices : OrderedSet Nat) :
    (found.foldl toggle indices).keys.toFinset =
      symmDiff indices.keys.toFinset found.toFinset := by
  induction found generalizing indices with
  | nil => exact (symmDiff_bot _).symm
  | cons index found ih =>
    rw [List.nodup_cons] at hfound
    have hapart : Disjoint ({index} : Finset Nat) found.toFinset := by
      simpa using hfound.1
    rw [List.foldl_cons, ih hfound.2, toFinset_toggle, symmDiff_assoc, hapart.symmDiff_eq_sup,
      List.toFinset_cons]
    rfl

/-- The tracker binds keys to ascending lists of results that happened. -/
def IsBounded (t : Tracker) : Prop :=
  ∀ key indices, t.find? key = some (some indices) →
    indices.Pairwise (· < ·) ∧ ∀ index ∈ indices, index < t.count

theorem find?_of_indicesOf {t : Tracker} {key : Key} {indices : List Nat}
    (h : t.indicesOf key = .ok indices) : t.find? key = some (some indices) := by
  unfold indicesOf at h
  split at h
  · cases h
  · cases h
  · next found hfound =>
    cases h
    exact hfound

theorem toFinset_toggleKeys {t : Tracker} (ht : t.IsBounded) {keys : List Key}
    {indices result : OrderedSet Nat} (h : t.toggleKeys indices keys = .ok result) :
    result.keys.toFinset = symmDiff indices.keys.toFinset (t.parity keys) := by
  induction keys generalizing indices with
  | nil =>
    cases h
    exact (symmDiff_bot _).symm
  | cons key keys ih =>
    rw [toggleKeys] at h
    cases hfound : t.indicesOf key with
    | error e => simp [hfound] at h
    | ok found =>
      simp only [hfound] at h
      have hbound := find?_of_indicesOf hfound
      have hset : t.indexSet key = found.toFinset := indexSet_of_find? hbound
      have hnodup : found.Nodup := (ht key found hbound).1.imp fun hlt => Nat.ne_of_lt hlt
      rw [ih h, toFinset_foldl_toggle hnodup, symmDiff_assoc, parity, parity, List.foldr_cons, hset]

theorem pairwise_toList (indices : OrderedSet Nat) :
    (OrderedSet.toList indices).Pairwise (· < ·) :=
  List.pairwise_map.2 (indices.sorted.imp fun h => Nat.compare_eq_lt.1 h)

/-- Keys resolve to the symmetric difference of their index sets, ascending. -/
theorem indices_eq {t : Tracker} (ht : t.IsBounded) {keys : List Key} {indices : List Nat}
    (h : t.indices keys = .ok indices) : indices = (t.parity keys).sort := by
  obtain ⟨result, hresult, rfl⟩ := map_eq_ok.1 h
  have hsorted := pairwise_toList result
  have hset : (OrderedSet.toList result).toFinset = t.parity keys :=
    (toFinset_toggleKeys ht hresult).trans (bot_symmDiff _)
  have hnodup : (OrderedSet.toList result).Nodup := hsorted.imp fun hlt => Nat.ne_of_lt hlt
  rw [← hset]
  exact ((List.toFinset_sort (· ≤ ·) hnodup).2 (hsorted.imp fun hlt => Nat.le_of_lt hlt)).symm

theorem indexSet_lt {t : Tracker} (ht : t.IsBounded) (key : Key) :
    ∀ index ∈ t.indexSet key, index < t.count := by
  intro index hindex
  cases hfind : t.find? key with
  | none => simp [indexSet, hfind] at hindex
  | some value =>
    cases value with
    | none => simp [indexSet, hfind] at hindex
    | some indices =>
      have hmem : index ∈ indices := by simpa [indexSet, hfind] using hindex
      exact (ht key indices hfind).2 index hmem

theorem lt_of_mem_parity {t : Tracker} (ht : t.IsBounded) {keys : List Key} {index : Nat}
    (h : index ∈ t.parity keys) : index < t.count := by
  induction keys with
  | nil => simp [parity] at h
  | cons key keys ih =>
    rw [parity, List.foldr_cons, Finset.mem_symmDiff] at h
    rcases h with ⟨h, -⟩ | ⟨h, -⟩
    · exact indexSet_lt ht key index h
    · exact ih h

/-- A result has a record target when it has happened and is near enough. -/
theorem targetOf_eq_ok {t : Tracker} {index : Nat} {target : Target} :
    t.targetOf index = .ok target ↔ index ≤ t.count ∧ t.count - index < Text.halfWord ∧
      target = .record (index - t.count : Int) := by
  constructor
  · intro h
    obtain ⟨back, hback, h⟩ := bind_eq_ok.1 h
    obtain ⟨hpast, rfl⟩ := Count.subtract_eq_ok.1 hback
    split at h
    · next hnear =>
      cases h
      refine ⟨hpast, hnear, congrArg Target.record ?_⟩
      omega
    · cases h
  · rintro ⟨hpast, hnear, rfl⟩
    refine bind_eq_ok.2 ⟨_, Count.subtract_eq_ok.2 ⟨hpast, rfl⟩, ?_⟩
    rw [if_pos hnear]
    refine congrArg (Except.ok ∘ Target.record) ?_
    omega

/-- The targets for keys point back at the symmetric difference of their index sets. -/
theorem recordTargets_eq {t : Tracker} (ht : t.IsBounded) {keys : List Key} {targets : List Target}
    (h : t.recordTargets keys = .ok targets) :
    targets =
      ((t.parity keys).sort.map fun (index : Nat) => (index - t.count : Int)).map .record := by
  unfold recordTargets at h
  obtain ⟨indices, hindices, h⟩ := bind_eq_ok.1 h
  rw [← indices_eq ht hindices, List.map_map]
  exact eq_map_of_mapM (fun index _ target htarget => (targetOf_eq_ok.1 htarget).2.2) h

/-! ## Following a record -/

/-- The position of the last result for a key. -/
structure IsLast (record : List (Key × List Nat)) (key : Key) (position : Nat) : Prop where
  here : (record.map Prod.fst)[position]? = some key
  last : ∀ other, (record.map Prod.fst)[other]? = some key → other ≤ position

/-- The tracker has counted the results of a record, which are few enough for its count, and binds
the key of each to the last result for it. -/
structure Follows (t : Tracker) (record : List (Key × List Nat)) : Prop where
  bounded : t.IsBounded
  fits : t.count < Text.longSize
  count : t.count = record.length
  bound : ∀ key ∈ record.map Prod.fst, ∃ position,
    t.find? key = some (some [position]) ∧ IsLast record key position

theorem IsLast.append_of_notMem {record more : List (Key × List Nat)} {key : Key} {position : Nat}
    (h : IsLast record key position) (hmore : key ∉ more.map Prod.fst) :
    IsLast (record ++ more) key position := by
  have hlt : position < (record.map Prod.fst).length := (List.getElem?_eq_some_iff.1 h.here).1
  constructor
  · rw [List.map_append, List.getElem?_append_left hlt]
    exact h.here
  · intro other hother
    rw [List.map_append] at hother
    by_cases hside : other < (record.map Prod.fst).length
    · rw [List.getElem?_append_left hside] at hother
      exact h.last other hother
    · rw [List.getElem?_append_right (by omega)] at hother
      exact absurd (List.mem_of_getElem? hother) hmore

theorem IsLast.append_left {more : List (Key × List Nat)} {key : Key} {position : Nat}
    (h : IsLast more key position) (record : List (Key × List Nat)) :
    IsLast (record ++ more) key (record.length + position) := by
  constructor
  · rw [List.map_append, List.getElem?_append_right (by simp)]
    simpa using h.here
  · intro other hother
    by_cases hside : other < record.length
    · omega
    · rw [List.map_append, List.getElem?_append_right (by simpa using hside),
        List.length_map] at hother
      have hlast := h.last _ hother
      omega

theorem isLast_singleton (entry : Key × List Nat) : IsLast [entry] entry.1 0 := by
  refine ⟨rfl, fun other hother => ?_⟩
  have hlt := (List.getElem?_eq_some_iff.1 hother).1
  simp only [List.map_cons, List.map_nil, List.length_singleton] at hlt
  omega

theorem IsLast.eq {record : List (Key × List Nat)} {key : Key} {position position' : Nat}
    (h : IsLast record key position) (h' : IsLast record key position') : position = position' :=
  Nat.le_antisymm (h'.last _ h.here) (h.last _ h'.here)

theorem exists_isLast {record : List (Key × List Nat)} {key : Key}
    (h : key ∈ record.map Prod.fst) : ∃ position, IsLast record key position := by
  induction record with
  | nil => simp at h
  | cons entry rest ih =>
    by_cases hrest : key ∈ rest.map Prod.fst
    · obtain ⟨position, hposition⟩ := ih hrest
      exact ⟨_, hposition.append_left [entry]⟩
    · have hkey : key = entry.1 := by
        rw [List.map_cons, List.mem_cons] at h
        exact h.resolve_right hrest
      subst hkey
      exact ⟨0, (isLast_singleton entry).append_of_notMem hrest⟩

theorem follows_empty : Follows .empty [] := by
  refine ⟨?_, by decide, rfl, by simp⟩
  intro key indices h
  simp [find?, empty] at h

theorem find?_bind {t t' : Tracker} {key : Key} {value : Option (List Nat)}
    (h : t.bind key value = .ok t') :
    t.find? key = none ∧ t'.count = t.count ∧
      ∀ other, t'.find? other = if other = key then some value else t.find? other := by
  unfold bind at h
  split at h
  · cases h
  · next hfresh =>
    cases h
    refine ⟨by simpa [contains] using hfresh, rfl, fun other => ?_⟩
    by_cases hsame : other = key
    · simp [find?, hsame]
    · have hbeq : (other == key) = false := by simpa using hsame
      simp [find?, List.lookup_cons, hbeq, hsame]

/-- Recording binds a fresh key to the next result and counts it. -/
theorem record_eq_ok {t t' : Tracker} {key : Key} :
    t.record key = .ok t' ↔ t.contains key = false ∧ t.count + 1 < Text.longSize ∧
      t' = ⟨(key, some [t.count]) :: t.bindings, t.count + 1⟩ := by
  unfold record Tracker.bind
  cases hkey : t.contains key with
  | true => simp [Except.bind]
  | false =>
    rw [if_neg Bool.false_ne_true, Except.bind, map_eq_ok]
    simp only [Count.add_eq_ok, true_and]
    constructor
    · rintro ⟨count, ⟨hfits, rfl⟩, rfl⟩
      exact ⟨hfits, rfl⟩
    · rintro ⟨hfits, rfl⟩
      exact ⟨_, ⟨hfits, rfl⟩, rfl⟩

/-- What recording a key changes. -/
theorem find?_record {t t' : Tracker} {key : Key} (h : t.record key = .ok t') :
    t.find? key = none ∧ t'.count = t.count + 1 ∧ t'.count < Text.longSize ∧
      ∀ other, t'.find? other = if other = key then some (some [t.count]) else t.find? other := by
  obtain ⟨bound, hbound, hcount⟩ := bind_eq_ok.1 h
  obtain ⟨count, hadd, rfl⟩ := map_eq_ok.1 hcount
  obtain ⟨hfits, rfl⟩ := Count.add_eq_ok.1 hadd
  obtain ⟨hfresh, hsame, hfind⟩ := find?_bind hbound
  exact ⟨hfresh, congrArg (· + 1) hsame, hfits, hfind⟩

theorem Follows.bind {t t' : Tracker} {record : List (Key × List Nat)} {key : Key}
    {value : Option (List Nat)} (ht : Follows t record) (h : t.bind key value = .ok t')
    (hvalue : ∀ indices, value = some indices →
      indices.Pairwise (· < ·) ∧ ∀ index ∈ indices, index < t.count) : Follows t' record := by
  obtain ⟨hfresh, hcount, hfind⟩ := find?_bind h
  refine ⟨fun other indices hother => ?_, hcount ▸ ht.fits, hcount.trans ht.count,
    fun other hother => ?_⟩
  · rw [hfind] at hother
    rw [hcount]
    split at hother
    · exact hvalue indices (Option.some.inj hother)
    · exact ht.bounded other indices hother
  · obtain ⟨position, hposition, hlast⟩ := ht.bound other hother
    have hne : other ≠ key := by
      rintro rfl
      simp [hfresh] at hposition
    exact ⟨position, by rw [hfind, if_neg hne, hposition], hlast⟩

theorem Follows.recordObstacle {t t' : Tracker} {record : List (Key × List Nat)} {key : Key}
    (ht : Follows t record) (h : t.recordObstacle key = .ok t') : Follows t' record :=
  ht.bind h (by simp)

theorem Follows.recordGroup {t t' : Tracker} {record : List (Key × List Nat)} {parts : List Key}
    {key : Key} (ht : Follows t record) (h : t.recordGroup parts key = .ok t') :
    Follows t' record := by
  obtain ⟨indices, hindices, h⟩ := bind_eq_ok.1 h
  refine ht.bind h fun found hfound => ?_
  cases hfound
  rw [indices_eq ht.bounded hindices]
  exact ⟨(t.parity parts).sortedLT_sort.pairwise,
    fun index hindex => lt_of_mem_parity ht.bounded ((Finset.mem_sort _).1 hindex)⟩

/-- Recording a key lets the tracker follow the record with a result for it. -/
theorem Follows.record {t t' : Tracker} {record : List (Key × List Nat)} {key : Key}
    (ht : Follows t record) (h : t.record key = .ok t') (qubits : List Nat) :
    Follows t' (record ++ [(key, qubits)]) := by
  obtain ⟨hfresh, hcount, hfits, hfind⟩ := find?_record h
  have hnew : key ∉ record.map Prod.fst := by
    intro hmem
    obtain ⟨position, hposition, -⟩ := ht.bound key hmem
    simp [hfresh] at hposition
  refine ⟨fun other indices hother => ?_, hfits, ?_, fun other hother => ?_⟩
  · rw [hfind] at hother
    rw [hcount]
    split at hother
    · cases hother
      simp
    · obtain ⟨hsorted, hlt⟩ := ht.bounded other indices hother
      exact ⟨hsorted, fun index hindex => Nat.lt_succ_of_lt (hlt index hindex)⟩
  · simp [hcount, ht.count]
  · rw [hfind]
    by_cases hsame : other = key
    · refine ⟨t.count, by rw [if_pos hsame], ?_⟩
      rw [hsame, ht.count]
      exact (isLast_singleton (key, qubits)).append_left record
    · have hmem : other ∈ record.map Prod.fst := by simpa [hsame] using hother
      obtain ⟨position, hposition, hlast⟩ := ht.bound other hmem
      refine ⟨position, ?_, hlast.append_of_notMem (by simpa using hsame)⟩
      rw [if_neg hsame, hposition]

theorem Follows.recordAll {entries : List (Key × List Nat)} {t t' : Tracker}
    {record : List (Key × List Nat)} (ht : Follows t record)
    (h : t.recordAll (entries.map Prod.fst) = .ok t') : Follows t' (record ++ entries) := by
  induction entries generalizing t record with
  | nil =>
    cases h
    simpa using ht
  | cons entry entries ih =>
    obtain ⟨next, hnext, hrest⟩ := bind_eq_ok.1 h
    have hfollows := ih (ht.record hnext entry.2) hrest
    rw [List.append_assoc] at hfollows
    exact hfollows

/-! ## Repetition -/

theorem find?_shiftFrom (t : Tracker) (start shift : Nat) (key : Key) :
    (t.shiftFrom start shift).find? key = (t.find? key).map fun value => value.map fun indices =>
      indices.map fun index => if start ≤ index then index + shift else index := by
  unfold find? shiftFrom
  induction t.bindings with
  | nil => rfl
  | cons entry rest ih =>
    obtain ⟨other, value⟩ := entry
    by_cases hsame : key = other
    · simp [hsame]
    · have hbeq : (key == other) = false := by simpa using hsame
      simpa [List.lookup_cons, hbeq] using ih

theorem IsBounded.shiftFrom {t : Tracker} (ht : t.IsBounded) (start shift : Nat) :
    (t.shiftFrom start shift).IsBounded := by
  intro key indices h
  rw [find?_shiftFrom] at h
  obtain ⟨value, hvalue, h⟩ := Option.map_eq_some_iff.1 h
  obtain ⟨old, rfl, rfl⟩ := Option.map_eq_some_iff.1 h
  obtain ⟨hsorted, hlt⟩ := ht key old hvalue
  constructor
  · refine List.pairwise_map.2 (hsorted.imp fun {a b} hab => ?_)
    split <;> split <;> omega
  · intro index hindex
    obtain ⟨before, hbefore, rfl⟩ := List.mem_map.1 hindex
    have hbound := hlt before hbefore
    have hcount : (t.shiftFrom start shift).count = t.count + shift := rfl
    rw [hcount]
    split <;> omega

theorem find?_shiftFrom_singleton {t : Tracker} {key : Key} {position : Nat}
    (h : t.find? key = some (some [position])) (start shift : Nat) :
    (t.shiftFrom start shift).find? key =
      some (some [if start ≤ position then position + shift else position]) := by
  rw [find?_shiftFrom, h]
  rfl

/-- Results that come in before the recent ones, for keys of these, shift the recent ones and leave
their keys bound to them. -/
theorem Follows.shiftFrom {t : Tracker} {record middle body : List (Key × List Nat)}
    (ht : Follows t (record ++ body)) (hfits : t.count + middle.length < Text.longSize)
    (hmiddle : ∀ key ∈ middle.map Prod.fst, key ∈ body.map Prod.fst) :
    Follows (t.shiftFrom record.length middle.length) (record ++ (middle ++ body)) := by
  refine ⟨ht.bounded.shiftFrom _ _, hfits, ?_, fun key hkey => ?_⟩
  · have hcount : (t.shiftFrom record.length middle.length).count = t.count + middle.length := rfl
    rw [hcount, ht.count]
    simp only [List.length_append]
    omega
  -- A key of the body is bound to one of its results, which moves; another key has no result
  -- after the record, and what it is bound to stays.
  · by_cases hbody : key ∈ body.map Prod.fst
    · obtain ⟨offset, hoffset⟩ := exists_isLast hbody
      obtain ⟨position, hposition, hlast⟩ := ht.bound key (by simp [hbody])
      obtain rfl := hlast.eq (hoffset.append_left record)
      refine ⟨record.length + offset + middle.length, ?_, ?_⟩
      · rw [find?_shiftFrom_singleton hposition, if_pos (Nat.le_add_right _ _)]
      · have hmoved := hoffset.append_left (record ++ middle)
        rw [List.append_assoc, List.length_append, Nat.add_right_comm] at hmoved
        exact hmoved
    · have hnew : key ∉ (middle ++ body).map Prod.fst := by
        rw [List.map_append, List.mem_append]
        exact fun h => hbody (h.elim (hmiddle key) id)
      have hrecord : key ∈ record.map Prod.fst := by
        rw [List.map_append, List.mem_append] at hkey
        exact hkey.resolve_right hnew
      obtain ⟨offset, hoffset⟩ := exists_isLast hrecord
      obtain ⟨position, hposition, hlast⟩ := ht.bound key (by simp [hrecord])
      obtain rfl := hlast.eq (hoffset.append_of_notMem hbody)
      have hlt : position < record.length := by
        simpa using (List.getElem?_eq_some_iff.1 hoffset.here).1
      refine ⟨position, ?_, hoffset.append_of_notMem hnew⟩
      rw [find?_shiftFrom_singleton hposition, if_neg (Nat.not_le.2 hlt)]

theorem mem_of_mem_repeated {body : List (Key × List Nat)} {count : Nat} {key : Key}
    (h : key ∈ (List.replicate count body).flatten.map Prod.fst) : key ∈ body.map Prod.fst := by
  obtain ⟨entry, hentry, rfl⟩ := List.mem_map.1 h
  obtain ⟨copy, hcopy, hentry⟩ := List.mem_flatten.1 hentry
  rw [List.eq_of_mem_replicate hcopy] at hentry
  exact List.mem_map_of_mem hentry

/-- A repetition that succeeds is of no results, or moves the recent ones and counts them all. -/
theorem repeatRecent_cases {t t' : Tracker} {body times : Nat}
    (h : t.repeatRecent body times = .ok t') :
    (body = 0 ∧ t' = t) ∨
      (0 < times ∧ body ≤ t.count ∧ t.count + (times - 1) * body < Text.longSize ∧
        t' = t.shiftFrom (t.count - body) ((times - 1) * body)) := by
  unfold Tracker.repeatRecent at h
  split at h
  · next hnone => exact .inl ⟨hnone, (Except.ok.inj h).symm⟩
  split at h
  · cases h
  split at h
  · cases h
  · obtain ⟨shift, hshift, h⟩ := bind_eq_ok.1 h
    obtain ⟨-, rfl⟩ := Count.multiply_eq_ok.1 hshift
    obtain ⟨_, hcount, rfl⟩ := map_eq_ok.1 h
    exact .inr ⟨by omega, by omega, (Count.add_eq_ok.1 hcount).1, rfl⟩

/-- After the repetition of a body the tracker follows the record with the body repeated, its keys
bound to the last repetition. -/
theorem Follows.repeatRecent {t t' : Tracker} {record body : List (Key × List Nat)} {more : Nat}
    (ht : Follows t (record ++ body)) (h : t.repeatRecent body.length (more + 1) = .ok t') :
    Follows t' (record ++ (List.replicate (more + 1) body).flatten) := by
  obtain ⟨hempty, rfl⟩ | ⟨-, -, hfits, rfl⟩ := repeatRecent_cases h
  · obtain rfl := List.length_eq_zero_iff.1 hempty
    simpa using ht
  · have hstart : t.count - body.length = record.length := by
      rw [ht.count, List.length_append]
      omega
    have hshift : (more + 1 - 1) * body.length = (List.replicate more body).flatten.length := by
      simp
    rw [hshift] at hfits
    rw [hstart, hshift, List.replicate_succ', List.flatten_append, List.flatten_singleton]
    exact ht.shiftFrom hfits fun _ => mem_of_mem_repeated

end Tracker

end StabCircuit
