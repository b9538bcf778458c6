/-!
# Ordered finite maps and sets

A finite map kept as the list of its entries in strictly increasing key order.
Every map has exactly one such list, so equality of maps is equality of lists,
and walking a map visits its keys in ascending order.  All updates go through
`alter`, whose effect on the order and on the value of every key is proved once
here: `get?_alter` is the rule from which those of `insert` and `erase` follow.
-/

namespace StabCircuit

/-- A finite map whose entries are listed in strictly increasing key order. -/
structure OrderedMap (κ α : Type) [Ord κ] where
  /-- The entries, by ascending key. -/
  entries : List (κ × α)
  /-- No key is listed twice and keys ascend. -/
  sorted : entries.Pairwise fun a b => compare a.1 b.1 = .lt
deriving DecidableEq

namespace OrderedMap

variable {κ α β : Type} [Ord κ]

/-- Replaces the entry of `key` in a sorted list by what `f` makes of it. -/
def alterEntries (key : κ) (f : Option α → Option α) :
    List (κ × α) → List (κ × α)
  | [] => (f none).toList.map fun value => (key, value)
  | entry :: rest =>
    match compare key entry.1 with
    | .lt => (f none).toList.map (fun value => (key, value)) ++ entry :: rest
    | .eq => (f (some entry.2)).toList.map (fun value => (entry.1, value)) ++ rest
    | .gt => entry :: alterEntries key f rest

/-- A key that `alterEntries` lists was listed before or is the altered key. -/
theorem key_of_mem_alterEntries
    {key : κ} {f : Option α → Option α} {entries : List (κ × α)} {e : κ × α}
    (h : e ∈ alterEntries key f entries) :
    e.1 = key ∨ ∃ e' ∈ entries, e.1 = e'.1 := by
  induction entries with
  | nil =>
    simp only [alterEntries, List.mem_map] at h
    obtain ⟨v, -, rfl⟩ := h
    exact .inl rfl
  | cons entry rest ih =>
    simp only [alterEntries] at h
    split at h
    · rcases List.mem_append.1 h with h | h
      · obtain ⟨v, -, rfl⟩ := List.mem_map.1 h
        exact .inl rfl
      · exact .inr ⟨e, h, rfl⟩
    · rcases List.mem_append.1 h with h | h
      · obtain ⟨v, -, rfl⟩ := List.mem_map.1 h
        exact .inr ⟨entry, by simp, rfl⟩
      · exact .inr ⟨e, List.mem_cons_of_mem _ h, rfl⟩
    · rcases List.mem_cons.1 h with rfl | h
      · exact .inr ⟨e, by simp, rfl⟩
      · rcases ih h with h | ⟨e', he', h⟩
        · exact .inl h
        · exact .inr ⟨e', List.mem_cons_of_mem _ he', h⟩

/-- `alterEntries` keeps a list sorted. -/
theorem sorted_alterEntries
    [Std.TransOrd κ] {key : κ} {f : Option α → Option α} {entries : List (κ × α)}
    (h : entries.Pairwise fun a b => compare a.1 b.1 = .lt) :
    (alterEntries key f entries).Pairwise fun a b => compare a.1 b.1 = .lt := by
  induction entries with
  | nil => cases hf : f none <;> simp [alterEntries, hf]
  | cons entry rest ih =>
    have hrest := (List.pairwise_cons.1 h).2
    have hhead := (List.pairwise_cons.1 h).1
    simp only [alterEntries]
    split
    · rename_i hlt
      cases hf : f none with
      | none => simpa using h
      | some v =>
        simp only [Option.toList_some, List.map_cons, List.map_nil, List.cons_append,
          List.nil_append]
        refine List.pairwise_cons.2 ⟨fun e he => ?_, h⟩
        rcases List.mem_cons.1 he with rfl | he
        · exact hlt
        · exact Std.TransCmp.lt_trans hlt (hhead e he)
    · cases hf : f (some entry.2) with
      | none => simpa using hrest
      | some v =>
        simp only [Option.toList_some, List.map_cons, List.map_nil, List.cons_append,
          List.nil_append]
        exact List.pairwise_cons.2 ⟨hhead, hrest⟩
    · rename_i hgt
      refine List.pairwise_cons.2 ⟨fun e he => ?_, ih hrest⟩
      rcases key_of_mem_alterEntries he with heq | ⟨e', he', heq⟩
      · rw [heq]; exact Std.OrientedCmp.gt_iff_lt.1 hgt
      · rw [heq]; exact hhead e' he'

/-- The value that a list of entries gives a key. -/
def lookup (key : κ) (entries : List (κ × α)) : Option α :=
  (entries.find? fun e => (compare e.1 key).isEq).map (·.2)

/-- A key below every listed key has no value. -/
theorem lookup_eq_none_of_lt
    [Std.TransOrd κ] {key : κ} {entries : List (κ × α)}
    (h : ∀ e ∈ entries, compare key e.1 = .lt) : lookup key entries = none := by
  have hfind : (entries.find? fun e => (compare e.1 key).isEq) = none := by
    refine List.find?_eq_none.2 fun e he heq => ?_
    have hgt := Std.OrientedCmp.gt_of_lt (h e he)
    simp [hgt] at heq
  simp [lookup, hfind]

/-- `alterEntries` changes the value of the altered key as told, and no other. -/
theorem lookup_alterEntries
    [Std.TransOrd κ] [Std.LawfulEqOrd κ] {key key' : κ} {f : Option α → Option α}
    {entries : List (κ × α)}
    (h : entries.Pairwise fun a b => compare a.1 b.1 = .lt) :
    lookup key' (alterEntries key f entries) =
      if compare key key' = .eq then f (lookup key entries) else lookup key' entries := by
  induction entries with
  | nil =>
    by_cases hk : key = key'
    · subst hk
      cases hf : f none <;> simp [alterEntries, lookup, hf]
    · cases hf : f none <;> simp [alterEntries, lookup, hf, hk]
  | cons entry rest ih =>
    have hrest := (List.pairwise_cons.1 h).2
    have hhead := (List.pairwise_cons.1 h).1
    simp only [alterEntries]
    split
    · rename_i hlt
      have hnone : lookup key (entry :: rest) = none := lookup_eq_none_of_lt fun e he => by
        rcases List.mem_cons.1 he with rfl | he
        · exact hlt
        · exact Std.TransCmp.lt_trans hlt (hhead e he)
      by_cases hk : key = key'
      · subst hk
        cases hf : f none with
        | none => simp [hnone, hf]
        | some v =>
          simp only [hnone, hf, Std.ReflOrd.compare_self, if_true]
          simp [lookup]
      · cases hf : f none <;> simp [lookup, hk]
    · rename_i heq
      have hkey : key = entry.1 := Std.LawfulEqOrd.eq_of_compare heq
      subst hkey
      by_cases hk : entry.1 = key'
      · subst hk
        cases hf : f (some entry.2) with
        | none => simpa [lookup, hf] using lookup_eq_none_of_lt hhead
        | some v => simp [lookup, hf]
      · cases hf : f (some entry.2) <;> simp [lookup, hk]
    · rename_i hgt
      have hne : ¬ entry.1 = key := by
        intro hk
        simp [hk] at hgt
      have hstep := ih hrest
      by_cases hk : entry.1 = key'
      · subst hk
        simp [lookup, hgt]
      · simpa [lookup, hk, hne] using hstep

/-- The map without entries. -/
def empty : OrderedMap κ α := ⟨[], .nil⟩

instance : Inhabited (OrderedMap κ α) := ⟨empty⟩

/-- Whether the map has no entries. -/
def isEmpty (m : OrderedMap κ α) : Bool := m.entries.isEmpty

/-- The number of entries. -/
def size (m : OrderedMap κ α) : Nat := m.entries.length

/-- The keys in ascending order. -/
def keys (m : OrderedMap κ α) : List κ := m.entries.map (·.1)

/-- The values in ascending order of their keys. -/
def values (m : OrderedMap κ α) : List α := m.entries.map (·.2)

/-- The value at a key. -/
def get? (m : OrderedMap κ α) (key : κ) : Option α :=
  lookup key m.entries

/-- Whether a key has a value. -/
def contains (m : OrderedMap κ α) (key : κ) : Bool :=
  m.entries.any fun e => (compare e.1 key).isEq

/-- Replaces the value at a key by what `f` makes of it; `none` is absence. -/
def alter [Std.TransOrd κ]
    (m : OrderedMap κ α) (key : κ) (f : Option α → Option α) : OrderedMap κ α :=
  ⟨alterEntries key f m.entries, sorted_alterEntries m.sorted⟩

/-- An altered map gives the altered key its new value and every other key its old one. -/
theorem get?_alter
    [Std.TransOrd κ] [Std.LawfulEqOrd κ]
    (m : OrderedMap κ α) (key key' : κ) (f : Option α → Option α) :
    (m.alter key f).get? key' =
      if compare key key' = .eq then f (m.get? key) else m.get? key' :=
  lookup_alterEntries m.sorted

/-- Gives a key a value, in place of any it had. -/
def insert [Std.TransOrd κ] (m : OrderedMap κ α) (key : κ) (value : α) : OrderedMap κ α :=
  m.alter key fun _ => some value

/-- An insertion is seen at its own key and nowhere else. -/
theorem get?_insert
    [Std.TransOrd κ] [Std.LawfulEqOrd κ]
    (m : OrderedMap κ α) (key key' : κ) (value : α) :
    (m.insert key value).get? key' =
      if compare key key' = .eq then some value else m.get? key' :=
  get?_alter m key key' _

/-- Takes a key out. -/
def erase [Std.TransOrd κ] (m : OrderedMap κ α) (key : κ) : OrderedMap κ α :=
  m.alter key fun _ => none

/-- An erased key has no value, and every other key keeps its own. -/
theorem get?_erase
    [Std.TransOrd κ] [Std.LawfulEqOrd κ] (m : OrderedMap κ α) (key key' : κ) :
    (m.erase key).get? key' =
      if compare key key' = .eq then none else m.get? key' :=
  get?_alter m key key' _

/-- Inserts entries one after another, the last one for a key winning. -/
def insertAll [Std.TransOrd κ]
    (m : OrderedMap κ α) (entries : List (κ × α)) : OrderedMap κ α :=
  entries.foldl (fun m e => m.insert e.1 e.2) m

/-- The map of a list of entries, the last one for a key winning. -/
def ofList [Std.TransOrd κ] (entries : List (κ × α)) : OrderedMap κ α :=
  empty.insertAll entries

/-- Keeps the entries that satisfy a test. -/
def filter (m : OrderedMap κ α) (p : κ → α → Bool) : OrderedMap κ α :=
  ⟨m.entries.filter fun e => p e.1 e.2, m.sorted.filter _⟩

end OrderedMap

/-- A finite set, listed in ascending order. -/
abbrev OrderedSet (κ : Type) [Ord κ] : Type := OrderedMap κ Unit

namespace OrderedSet

variable {κ : Type} [Ord κ]

/-- The members in ascending order. -/
def toList (s : OrderedSet κ) : List κ := s.keys

/-- Adds a member. -/
def insert [Std.TransOrd κ] (s : OrderedSet κ) (member : κ) : OrderedSet κ :=
  OrderedMap.insert s member ()

/-- Adds every element of a list. -/
def insertMany [Std.TransOrd κ] (s : OrderedSet κ) (members : List κ) : OrderedSet κ :=
  members.foldl OrderedSet.insert s

/-- The set of the elements of a list. -/
def ofList [Std.TransOrd κ] (members : List κ) : OrderedSet κ :=
  OrderedSet.insertMany OrderedMap.empty members

end OrderedSet

end StabCircuit
