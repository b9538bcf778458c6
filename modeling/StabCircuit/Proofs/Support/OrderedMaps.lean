import Mathlib.Data.List.Dedup
import Mathlib.Data.List.Perm.Basic
import StabCircuit.Support.OrderedMap

/-!
# Entries of ordered maps

Updates of an ordered map seen as rearrangements of its entries: changing the
value of a key takes the entry of that key out and puts the new one in, and
inserting entries with fresh keys adds them.
-/

namespace StabCircuit

namespace OrderedMap

variable {κ α : Type} [Ord κ]

/-- A value at a key is a value of the map. -/
theorem mem_values_of_get? {m : OrderedMap κ α} {key : κ} {value : α}
    (h : m.get? key = some value) : value ∈ m.values := by
  obtain ⟨entry, hentry, rfl⟩ := Option.map_eq_some_iff.1 h
  exact List.mem_map.2 ⟨entry, List.mem_of_find?_eq_some hentry, rfl⟩

/-- The keys of a map are those with a value. -/
theorem mem_keys_iff [Std.LawfulEqOrd κ] {m : OrderedMap κ α} {key : κ} :
    key ∈ m.keys ↔ (m.get? key).isSome = true := by
  simp [keys, get?, lookup]

theorem contains_iff_mem_keys [Std.LawfulEqOrd κ] {m : OrderedMap κ α} {key : κ} :
    m.contains key = true ↔ key ∈ m.keys := by
  simp [contains, keys]

variable [Std.TransOrd κ]

theorem nodup_keys_of_sorted {entries : List (κ × α)}
    (h : entries.Pairwise fun a b => compare a.1 b.1 = .lt) :
    (entries.map Prod.fst).Nodup := by
  refine List.pairwise_map.2 (h.imp fun {a b} hab heq => ?_)
  rw [heq, Std.ReflOrd.compare_self] at hab
  cases hab

theorem nodup_keys (m : OrderedMap κ α) : m.keys.Nodup := nodup_keys_of_sorted m.sorted

variable [Std.LawfulEqOrd κ]

theorem alterEntries_perm (key : κ) (f : Option α → Option α) {entries : List (κ × α)}
    (h : entries.Pairwise fun a b => compare a.1 b.1 = .lt) :
    ∃ rest, entries.Perm ((lookup key entries).toList.map (Prod.mk key) ++ rest) ∧
      (alterEntries key f entries).Perm
        ((f (lookup key entries)).toList.map (Prod.mk key) ++ rest) := by
  induction entries with
  | nil => exact ⟨[], by simp [lookup], by simp [alterEntries, lookup]⟩
  | cons entry entries ih =>
    have hhead := (List.pairwise_cons.1 h).1
    have hrest := (List.pairwise_cons.1 h).2
    simp only [alterEntries]
    split
    · next hlt =>
      have hnone : lookup key (entry :: entries) = none := by
        refine lookup_eq_none_of_lt fun e he => ?_
        rcases List.mem_cons.1 he with rfl | he
        · exact hlt
        · exact Std.TransCmp.lt_trans hlt (hhead e he)
      exact ⟨entry :: entries, by simp [hnone], by rw [hnone]⟩
    · next heq =>
      obtain rfl : key = entry.1 := Std.LawfulEqOrd.eq_of_compare heq
      have hsome : lookup entry.1 (entry :: entries) = some entry.2 := by simp [lookup]
      exact ⟨entries, by simp [hsome], by rw [hsome]⟩
    · next hgt =>
      have hne : ¬ entry.1 = key := by
        intro hk
        simp [hk] at hgt
      have hlookup : lookup key (entry :: entries) = lookup key entries := by
        simp [lookup, hne]
      obtain ⟨rest, hold, hnew⟩ := ih hrest
      rw [hlookup]
      refine ⟨entry :: rest, ?_, ?_⟩
      · exact (hold.cons entry).trans List.perm_middle.symm
      · exact (hnew.cons entry).trans List.perm_middle.symm

/-- A change of the value of a key replaces its entry and leaves the rest. -/
theorem alter_perm (m : OrderedMap κ α) (key : κ) (f : Option α → Option α) :
    ∃ rest, m.entries.Perm ((m.get? key).toList.map (Prod.mk key) ++ rest) ∧
      (m.alter key f).entries.Perm ((f (m.get? key)).toList.map (Prod.mk key) ++ rest) :=
  alterEntries_perm key f m.sorted

theorem get?_eq_none_of_notMem {m : OrderedMap κ α} {key : κ} (h : key ∉ m.keys) :
    m.get? key = none := by
  obtain ⟨rest, hold, -⟩ := m.alter_perm key id
  cases hget : m.get? key with
  | none => rfl
  | some v =>
    have hmem : (key, v) ∈ m.entries := hold.mem_iff.2 (by simp [hget])
    exact absurd (List.mem_map.2 ⟨_, hmem, rfl⟩) h

theorem insert_perm {m : OrderedMap κ α} {key : κ} (h : key ∉ m.keys) (value : α) :
    (m.insert key value).entries.Perm ((key, value) :: m.entries) := by
  obtain ⟨rest, hold, hnew⟩ := m.alter_perm key fun _ => some value
  rw [get?_eq_none_of_notMem h] at hold
  simp only [Option.toList_none, List.map_nil, List.nil_append, Option.toList_some, List.map_cons,
    List.cons_append] at hold hnew
  exact hnew.trans (hold.symm.cons _)

theorem mem_keys_insert {m : OrderedMap κ α} {key key' : κ} {value : α} :
    key' ∈ (m.insert key value).keys ↔ key' = key ∨ key' ∈ m.keys := by
  obtain ⟨rest, hold, hnew⟩ := m.alter_perm key fun _ => some value
  have hkeys := (hold.map Prod.fst).mem_iff (a := key')
  have hkeys' := (hnew.map Prod.fst).mem_iff (a := key')
  simp only [keys, insert, hkeys, hkeys']
  cases m.get? key <;> simp

theorem mem_entries_iff {m : OrderedMap κ α} {key : κ} {value : α} :
    (key, value) ∈ m.entries ↔ m.get? key = some value := by
  obtain ⟨rest, hold, -⟩ := m.alter_perm key id
  constructor
  · intro h
    have hkey : key ∈ m.keys := List.mem_map.2 ⟨_, h, rfl⟩
    obtain ⟨value', hvalue⟩ := Option.isSome_iff_exists.1 (mem_keys_iff.1 hkey)
    -- no key is listed twice, so the entry that is looked up is this one
    have hmem : (key, value') ∈ m.entries := hold.mem_iff.2 (by simp [hvalue])
    have hsame := List.inj_on_of_nodup_map m.nodup_keys h hmem rfl
    rw [hvalue, (Prod.mk.inj hsame).2]
  · intro h
    exact hold.mem_iff.2 (by simp [h])

/-- Lists in strictly ascending order with the same members are equal. -/
theorem eq_of_sorted_of_mem_iff {β : Type} {f : β → κ} {xs ys : List β}
    (hxs : xs.Pairwise fun a b => compare (f a) (f b) = .lt)
    (hys : ys.Pairwise fun a b => compare (f a) (f b) = .lt) (h : ∀ x, x ∈ xs ↔ x ∈ ys) :
    xs = ys := by
  have hne : ∀ a b : β, compare (f a) (f b) = .lt → a ≠ b := by
    rintro a _ hlt rfl
    rw [Std.ReflOrd.compare_self] at hlt
    cases hlt
  have hperm : xs.Perm ys :=
    (List.perm_ext_iff_of_nodup (hxs.imp (hne _ _)) (hys.imp (hne _ _))).2 h
  refine List.Perm.eq_of_pairwise ?_ hxs hys hperm
  intro a b _ _ hlt hgt
  rw [Std.OrientedCmp.gt_of_lt hlt] at hgt
  cases hgt

/-- A map is known by the values that it gives. -/
theorem eq_of_get? {m m' : OrderedMap κ α} (h : ∀ key, m.get? key = m'.get? key) : m = m' := by
  have hentries : m.entries = m'.entries := by
    refine eq_of_sorted_of_mem_iff m.sorted m'.sorted fun entry => ?_
    rw [mem_entries_iff, mem_entries_iff, h]
  obtain ⟨entries, hsorted⟩ := m
  subst hentries
  rfl

theorem keys_eq_of_mem_iff {β : Type} {m : OrderedMap κ α} {m' : OrderedMap κ β}
    (h : ∀ key, key ∈ m.keys ↔ key ∈ m'.keys) : m.keys = m'.keys :=
  eq_of_sorted_of_mem_iff (f := id) (List.pairwise_map.2 m.sorted)
    (List.pairwise_map.2 m'.sorted) h

/-- Entries with fresh and different keys are added. -/
theorem insertAll_perm {m : OrderedMap κ α} {entries : List (κ × α)}
    (hnodup : (entries.map Prod.fst).Nodup) (hfresh : ∀ e ∈ entries, e.1 ∉ m.keys) :
    (m.insertAll entries).entries.Perm (m.entries ++ entries) := by
  induction entries generalizing m with
  | nil => simp [insertAll]
  | cons e entries ih =>
    rw [List.map_cons, List.nodup_cons] at hnodup
    have hfresh' : ∀ e' ∈ entries, e'.1 ∉ (m.insert e.1 e.2).keys := by
      intro e' he' hmem
      rcases mem_keys_insert.1 hmem with heq | hmem
      · exact hnodup.1 (List.mem_map.2 ⟨e', he', heq⟩)
      · exact hfresh e' (List.mem_cons_of_mem _ he') hmem
    have hinsert := insert_perm (hfresh e (by simp)) e.2
    calc ((m.insert e.1 e.2).insertAll entries).entries
        |>.Perm ((m.insert e.1 e.2).entries ++ entries) := ih hnodup.2 hfresh'
      List.Perm _ (e :: m.entries ++ entries) := hinsert.append_right entries
      List.Perm _ (m.entries ++ e :: entries) := List.perm_middle.symm

theorem ofList_perm {entries : List (κ × α)} (hnodup : (entries.map Prod.fst).Nodup) :
    (ofList entries).entries.Perm entries :=
  insertAll_perm hnodup fun _ _ h => by simp [keys, empty] at h

end OrderedMap

namespace OrderedSet

variable {κ : Type} [Ord κ] [Std.TransOrd κ] [Std.LawfulEqOrd κ]

theorem mem_keys_insertMany {s : OrderedSet κ} {members : List κ} {key : κ} :
    key ∈ (insertMany s members).keys ↔ key ∈ s.keys ∨ key ∈ members := by
  induction members generalizing s with
  | nil => simp [insertMany]
  | cons k members ih =>
    have hstep : insertMany s (k :: members) = insertMany (OrderedSet.insert s k) members := rfl
    rw [hstep, ih, OrderedSet.insert, OrderedMap.mem_keys_insert, List.mem_cons, or_assoc,
      or_left_comm]

theorem mem_keys_ofList {members : List κ} {key : κ} :
    key ∈ (ofList members).keys ↔ key ∈ members := by
  rw [ofList, mem_keys_insertMany]
  simp [OrderedMap.keys, OrderedMap.empty]

/-- A set is known by its members. -/
theorem eq_of_mem_iff {s t : OrderedSet κ} (h : ∀ key, key ∈ s.keys ↔ key ∈ t.keys) : s = t := by
  apply OrderedMap.eq_of_get?
  intro key
  have hsome := h key
  rw [OrderedMap.mem_keys_iff, OrderedMap.mem_keys_iff, ← Bool.eq_iff_iff] at hsome
  cases hs : s.get? key with
  | none =>
    have hnone : t.get? key = none := by simpa [hs] using hsome
    rw [hnone]
  | some u =>
    rw [hs, Option.isSome_some] at hsome
    obtain ⟨v, hv⟩ := Option.isSome_iff_exists.1 hsome.symm
    rw [hv]

theorem ofList_eq_of_mem_iff {members others : List κ} (h : ∀ key, key ∈ members ↔ key ∈ others) :
    ofList members = ofList others := by
  apply eq_of_mem_iff
  intro key
  rw [mem_keys_ofList, mem_keys_ofList, h]

/-- A list has as many entries as its set of members when no member is listed twice. -/
theorem size_ofList_eq_iff {members : List κ} :
    members.length = (ofList members).size ↔ members.Nodup := by
  classical
  have hnodup := OrderedMap.nodup_keys (ofList members)
  have hperm : (ofList members).keys.Perm members.dedup := by
    refine (List.perm_ext_iff_of_nodup hnodup members.nodup_dedup).2 fun key => ?_
    rw [mem_keys_ofList, List.mem_dedup]
  have hsize : (ofList members).size = members.dedup.length := by
    rw [← hperm.length_eq, OrderedMap.keys, List.length_map, OrderedMap.size]
  rw [hsize]
  constructor
  · intro hlength
    have hsame : members.dedup = members :=
      (List.dedup_sublist members).eq_of_length hlength.symm
    exact List.dedup_eq_self.1 hsame
  · intro hmembers
    rw [List.dedup_eq_self.2 hmembers]

end OrderedSet

end StabCircuit
