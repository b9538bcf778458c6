import StabCircuit.Layer.Interaction
import StabCircuit.Proofs.Circuit.Unrolled
import StabCircuit.Proofs.Meaning.StateMaps

/-!
# The meaning of circuits

A circuit is read as the list of its elementary operations, with repeat blocks
unrolled.  Given an outcome for every result, the operations compose to a linear
map on states.  Rotations, controlled Paulis, exchanges, resets and measurements
have their exact maps; error channels, classically controlled pieces and the
remaining two-qubit gates stand for arbitrary maps, which may depend on how many
results came before, and so on what these were.
-/

namespace StabCircuit

/-- An elementary operation. -/
inductive Action where
  /-- A rotation of a qubit. -/
  | rotate (rotation : Rotation) (qubit : Nat)
  /-- A Pauli on `b`, controlled by a Pauli on `a`. -/
  | controlled (P Q : Basis) (a b : Nat)
  /-- An exchange of two qubits. -/
  | exchange (a b : Nat)
  /-- An exchange with a phase. -/
  | iswap (a b : Nat)
  /-- A reset to the positive eigenstate of a basis. -/
  | prepare (qubit : Nat) (basis : Basis)
  /-- A measurement of a product of Paulis, with one result. -/
  | measure (factors : List (Nat × Basis))
  /-- A piece of an instruction without a map of its own, its arguments read as numbers. -/
  | uninterpreted (gate : Gate) (numbers : List Int) (group : List Target)

/-- Maps for the operations without a map of their own.  Nothing is asked of those of error
channels and classically controlled pieces; an exchange with a phase is symmetric and commutes
with maps on other qubits. -/
structure Interpretation where
  /-- The map of an exchange with a phase. -/
  iswap : Nat → Nat → StateMap
  iswap_comm : ∀ a b, iswap a b = iswap b a
  iswap_commute : ∀ a b (S : Set Nat) (F : StateMap), a ∉ S → b ∉ S →
    StateMap.SupportedOn S F → Commute (iswap a b) F
  iswap_commute_iswap : ∀ a b c d, a ≠ c → a ≠ d → b ≠ c → b ≠ d →
    Commute (iswap a b) (iswap c d)
  /-- The map of any other piece, given the number of results before it. -/
  piece : Nat → Gate → List Int → List Target → StateMap

/-- Every piece may do nothing, and an exchange without its phase is symmetric and local. -/
instance : Inhabited Interpretation where
  default :=
    { iswap := StateMap.exchange
      iswap_comm := StateMap.exchange_comm
      iswap_commute := fun a b S F ha hb hF =>
        (StateMap.supportedOn_exchange a b).commute (by rintro q (rfl | rfl) <;> assumption) hF
      iswap_commute_iswap := fun a b c d hac had hbc hbd =>
        (StateMap.supportedOn_exchange a b).commute
          (by rintro q (rfl | rfl) (rfl | rfl) <;> simp_all) (StateMap.supportedOn_exchange c d)
      piece := fun _ _ _ _ => 1 }

namespace Action

/-- The map of an operation that comes after `recorded` results. -/
def map (I : Interpretation) (outcome : Nat → Bool) (recorded : Nat) : Action → StateMap
  | rotate r q => StateMap.rotate r q
  | controlled P Q a b => StateMap.controlled P Q a b
  | exchange a b => StateMap.exchange a b
  | iswap a b => I.iswap a b
  | prepare q b => StateMap.prepare q b
  | measure factors => StateMap.project factors (outcome recorded)
  | uninterpreted g numbers group => I.piece recorded g numbers group

/-- The number of results of an operation. -/
def results : Action → Nat
  | measure _ => 1
  | uninterpreted g _ _ => if g.kind.isMeasurement then 1 else 0
  | _ => 0

/-- The qubits of an operation. -/
def qubits : Action → List Nat
  | rotate _ q | prepare q _ => [q]
  | controlled _ _ a b | exchange a b | iswap a b => [a, b]
  | measure factors => factors.map Prod.fst
  | uninterpreted _ _ group => group.filterMap Target.qubit?

/-- The map of operations that come after `recorded` results, the first one applied first. -/
def meaning (I : Interpretation) (outcome : Nat → Bool) : Nat → List Action → StateMap
  | _, [] => 1
  | recorded, x :: xs => meaning I outcome (recorded + x.results) xs * x.map I outcome recorded

/-- The number of results of operations. -/
def resultCount (xs : List Action) : Nat := (xs.map results).sum

/-- Operations with the same number of results and the same map, whatever the outcomes and
wherever they stand. -/
structure SameEffect (xs ys : List Action) : Prop where
  results : resultCount xs = resultCount ys
  map : ∀ I outcome recorded, meaning I outcome recorded xs = meaning I outcome recorded ys

theorem resultCount_append (xs ys : List Action) :
    resultCount (xs ++ ys) = resultCount xs + resultCount ys := by
  simp [resultCount]

theorem meaning_append (I : Interpretation) (outcome : Nat → Bool) (recorded : Nat)
    (xs ys : List Action) :
    meaning I outcome recorded (xs ++ ys) =
      meaning I outcome (recorded + resultCount xs) ys * meaning I outcome recorded xs := by
  induction xs generalizing recorded with
  | nil => simp [meaning, resultCount]
  | cons x xs ih =>
    have hcount : recorded + resultCount (x :: xs) = recorded + x.results + resultCount xs := by
      simp only [resultCount, List.map_cons, List.sum_cons]
      omega
    rw [List.cons_append, meaning, meaning, ih, hcount, mul_assoc]

namespace SameEffect

theorem refl (xs : List Action) : SameEffect xs xs := ⟨rfl, fun _ _ _ => rfl⟩

theorem of_eq {xs ys : List Action} (h : xs = ys) : SameEffect xs ys := h ▸ refl xs

theorem symm {xs ys : List Action} (h : SameEffect xs ys) : SameEffect ys xs :=
  ⟨h.results.symm, fun I outcome recorded => (h.map I outcome recorded).symm⟩

theorem trans {xs ys zs : List Action} (h : SameEffect xs ys) (h' : SameEffect ys zs) :
    SameEffect xs zs :=
  ⟨h.results.trans h'.results,
    fun I outcome recorded => (h.map I outcome recorded).trans (h'.map I outcome recorded)⟩

instance : Trans SameEffect SameEffect SameEffect := ⟨trans⟩

theorem append {xs ys us vs : List Action} (h : SameEffect xs ys) (h' : SameEffect us vs) :
    SameEffect (xs ++ us) (ys ++ vs) := by
  refine ⟨?_, fun I outcome recorded => ?_⟩
  · rw [resultCount_append, resultCount_append, h.results, h'.results]
  · rw [meaning_append, meaning_append, h.results, h.map, h'.map]

theorem append_left (xs : List Action) {us vs : List Action} (h : SameEffect us vs) :
    SameEffect (xs ++ us) (xs ++ vs) :=
  (refl xs).append h

theorem append_right {xs ys : List Action} (h : SameEffect xs ys) (us : List Action) :
    SameEffect (xs ++ us) (ys ++ us) :=
  h.append (refl us)

theorem flatMap {ι : Type} {items : List ι} {f g : ι → List Action}
    (h : ∀ i ∈ items, SameEffect (f i) (g i)) :
    SameEffect (items.flatMap f) (items.flatMap g) := by
  induction items with
  | nil => exact refl _
  | cons i items ih =>
    rw [List.flatMap_cons, List.flatMap_cons]
    exact (h i (by simp)).append (ih fun j hj => h j (List.mem_cons_of_mem _ hj))

theorem map_congr {ι : Type} {items : List ι} {f g : ι → Action}
    (h : ∀ i ∈ items, SameEffect [f i] [g i]) : SameEffect (items.map f) (items.map g) := by
  rw [List.map_eq_flatMap, List.map_eq_flatMap]
  exact flatMap h

/-- Single operations without results have the same effect when their maps agree. -/
theorem of_map {xs ys : List Action} (hx : ∀ x ∈ xs, x.results = 0) (hy : ∀ y ∈ ys, y.results = 0)
    (h : ∀ I outcome recorded, meaning I outcome recorded xs = meaning I outcome recorded ys) :
    SameEffect xs ys := by
  have hzero : ∀ zs : List Action, (∀ z ∈ zs, z.results = 0) → resultCount zs = 0 := by
    intro zs hz
    refine List.sum_eq_zero fun k hk => ?_
    obtain ⟨z, hz', rfl⟩ := List.mem_map.1 hk
    exact hz z hz'
  exact ⟨by rw [hzero xs hx, hzero ys hy], h⟩

end SameEffect

/-! ## Exchanging operations -/

/-- Two blocks of operations may be performed in either order. -/
def Swappable (xs ys : List Action) : Prop := SameEffect (xs ++ ys) (ys ++ xs)

namespace Swappable

theorem symm {xs ys : List Action} (h : Swappable xs ys) : Swappable ys xs := SameEffect.symm h

theorem nil_left (ys : List Action) : Swappable [] ys := SameEffect.of_eq (by simp)

theorem append_left {xs ys zs : List Action} (hx : Swappable xs zs) (hy : Swappable ys zs) :
    Swappable (xs ++ ys) zs := by
  have hfirst : SameEffect (xs ++ ys ++ zs) (xs ++ zs ++ ys) := by
    rw [List.append_assoc, List.append_assoc]
    exact SameEffect.append_left xs hy
  have hsecond : SameEffect (xs ++ zs ++ ys) (zs ++ (xs ++ ys)) := by
    rw [← List.append_assoc]
    exact SameEffect.append_right hx ys
  exact hfirst.trans hsecond

theorem flatMap_left {ι : Type} {items : List ι} {f : ι → List Action} {ys : List Action}
    (h : ∀ i ∈ items, Swappable (f i) ys) : Swappable (items.flatMap f) ys := by
  induction items with
  | nil => exact nil_left ys
  | cons i items ih =>
    rw [List.flatMap_cons]
    exact (h i (by simp)).append_left (ih fun j hj => h j (List.mem_cons_of_mem _ hj))

end Swappable

/-- Blocks that may be exchanged can be performed in any order. -/
theorem SameEffect.of_perm {ι : Type} {f : ι → List Action} {xs ys : List ι} (h : xs.Perm ys)
    (hswap : xs.Pairwise fun i j => Swappable (f i) (f j)) :
    SameEffect (xs.flatMap f) (ys.flatMap f) := by
  induction h with
  | nil => exact refl _
  | cons x _ ih =>
    rw [List.flatMap_cons, List.flatMap_cons]
    exact SameEffect.append_left (f x) (ih (List.pairwise_cons.1 hswap).2)
  | swap x y l =>
    have hxy := (List.pairwise_cons.1 hswap).1 x (by simp)
    simp only [List.flatMap_cons, ← List.append_assoc]
    exact SameEffect.append_right hxy (l.flatMap f)
  | trans hxy _ ih ih' =>
    exact (ih hswap).trans (ih' ((hxy.pairwise_iff fun h => h.symm).1 hswap))

theorem SameEffect.map_of_perm {ι : Type} {f : ι → Action} {xs ys : List ι} (h : xs.Perm ys)
    (hswap : xs.Pairwise fun i j => Swappable [f i] [f j]) :
    SameEffect (xs.map f) (ys.map f) := by
  rw [List.map_eq_flatMap, List.map_eq_flatMap]
  exact SameEffect.of_perm h hswap

/-- The first blocks of all items may be performed before the second ones. -/
theorem SameEffect.collect {ι : Type} {items : List ι} {f g : ι → List Action}
    (hswap : items.Pairwise fun i j => Swappable (g i) (f j)) :
    SameEffect (items.flatMap fun i => f i ++ g i) (items.flatMap f ++ items.flatMap g) := by
  induction items with
  | nil => exact refl _
  | cons i items ih =>
    rw [List.pairwise_cons] at hswap
    have hmove : Swappable (g i) (items.flatMap f) :=
      (Swappable.flatMap_left fun j hj => (hswap.1 j hj).symm).symm
    have hrest := (ih hswap.2).append_left (f i ++ g i)
    have hfront := (hmove.append_right (items.flatMap g)).append_left (f i)
    simp only [List.flatMap_cons, List.append_assoc] at hrest hfront ⊢
    exact hrest.trans hfront

/-- When every item allows `old` then `after` to be replaced by `before` then `new`, and blocks of
different items may be exchanged, the same holds with the blocks of all items collected. -/
theorem SameEffect.interchange {ι : Type} {items : List ι} {old after before new : ι → List Action}
    (h : ∀ i ∈ items, SameEffect (old i ++ after i) (before i ++ new i))
    (hold : items.Pairwise fun i j => Swappable (after i) (old j))
    (hnew : items.Pairwise fun i j => Swappable (new i) (before j)) :
    SameEffect (items.flatMap old ++ items.flatMap after)
      (items.flatMap before ++ items.flatMap new) :=
  (collect hold).symm.trans ((SameEffect.flatMap h).trans (collect hnew))

/-! ## Operations on different qubits -/

/-- Whether an operation has a map of its own, or that of an exchange with a phase. -/
def isInterpreted : Action → Bool
  | uninterpreted _ _ _ => false
  | _ => true

/-- Whether an operation has a map and no result. -/
def isQuiet : Action → Bool
  | uninterpreted _ _ _ | measure _ => false
  | _ => true

theorem supportedOn_map (I : Interpretation) (outcome : Nat → Bool) (recorded : Nat) {x : Action}
    (hx : x.isInterpreted = true) (hiswap : ∀ a b, x ≠ iswap a b) :
    StateMap.SupportedOn {q | q ∈ x.qubits} (x.map I outcome recorded) := by
  cases x with
  | rotate r q => simpa [map, qubits] using StateMap.supportedOn_rotate r q
  | prepare q b => simpa [map, qubits] using StateMap.supportedOn_prepare q b
  | controlled P Q a b =>
    have hset : ({q | q ∈ (controlled P Q a b).qubits} : Set Nat) = {a, b} := by
      ext q
      simp [qubits]
    rw [hset]
    exact StateMap.supportedOn_controlled P Q a b
  | exchange a b =>
    have hset : ({q | q ∈ (exchange a b).qubits} : Set Nat) = {a, b} := by
      ext q
      simp [qubits]
    rw [hset]
    exact StateMap.supportedOn_exchange a b
  | iswap a b => exact absurd rfl (hiswap a b)
  | measure factors => exact StateMap.supportedOn_project factors _
  | uninterpreted g numbers group => simp [isInterpreted] at hx

theorem commute_map (I : Interpretation) (outcome : Nat → Bool) (m n : Nat) {x y : Action}
    (hx : x.isInterpreted = true) (hy : y.isInterpreted = true)
    (hxy : ∀ q ∈ x.qubits, q ∉ y.qubits) :
    Commute (x.map I outcome m) (y.map I outcome n) := by
  by_cases hxi : ∃ a b, x = iswap a b
  · obtain ⟨a, b, rfl⟩ := hxi
    have ha : a ∉ y.qubits := hxy a (by simp [qubits])
    have hb : b ∉ y.qubits := hxy b (by simp [qubits])
    by_cases hyi : ∃ c d, y = iswap c d
    · obtain ⟨c, d, rfl⟩ := hyi
      simp only [qubits, List.mem_cons, List.not_mem_nil, or_false, not_or] at ha hb
      exact I.iswap_commute_iswap a b c d ha.1 ha.2 hb.1 hb.2
    · exact I.iswap_commute a b _ _ ha hb
        (supportedOn_map I outcome n hy fun c d h => hyi ⟨c, d, h⟩)
  · have hsx := supportedOn_map I outcome m hx fun a b h => hxi ⟨a, b, h⟩
    by_cases hyi : ∃ c d, y = iswap c d
    · obtain ⟨c, d, rfl⟩ := hyi
      have hc : c ∉ x.qubits := fun h => hxy c h (by simp [qubits])
      have hd : d ∉ x.qubits := fun h => hxy d h (by simp [qubits])
      exact (I.iswap_commute c d _ _ hc hd hsx).symm
    · exact hsx.commute hxy (supportedOn_map I outcome n hy fun c d h => hyi ⟨c, d, h⟩)

theorem results_eq_zero_of_isQuiet {x : Action} (hx : x.isQuiet = true) : x.results = 0 := by
  cases x <;> first | rfl | simp [isQuiet] at hx

theorem isInterpreted_of_isQuiet {x : Action} (hx : x.isQuiet = true) :
    x.isInterpreted = true := by
  cases x <;> first | rfl | simp [isQuiet] at hx

theorem map_eq_of_isQuiet (I : Interpretation) (outcome : Nat → Bool) (m n : Nat) {x : Action}
    (hx : x.isQuiet = true) : x.map I outcome m = x.map I outcome n := by
  cases x <;> first | rfl | simp [isQuiet] at hx

theorem swappable_of_disjoint {x y : Action} (hx : x.isQuiet = true)
    (hy : y.isInterpreted = true) (hxy : ∀ q ∈ x.qubits, q ∉ y.qubits) : Swappable [x] [y] := by
  have hzero := results_eq_zero_of_isQuiet hx
  refine ⟨?_, fun I outcome recorded => ?_⟩
  · simp [resultCount, hzero]
  · simp only [List.cons_append, List.nil_append, meaning, one_mul, hzero, Nat.add_zero]
    rw [map_eq_of_isQuiet I outcome (recorded + y.results) recorded hx]
    exact (commute_map I outcome recorded recorded (isInterpreted_of_isQuiet hx) hy hxy).symm

/-- Blocks on different qubits may be exchanged when one of them has no results. -/
theorem swappable_blocks {xs ys : List Action} (hx : ∀ x ∈ xs, x.isQuiet = true)
    (hy : ∀ y ∈ ys, y.isInterpreted = true)
    (hxy : ∀ x ∈ xs, ∀ y ∈ ys, ∀ q ∈ x.qubits, q ∉ y.qubits) : Swappable xs ys := by
  have hrow : ∀ x ∈ xs, Swappable [x] ys := by
    intro x hxs
    have hall : Swappable (ys.flatMap fun y => [y]) [x] :=
      Swappable.flatMap_left fun y hys =>
        (swappable_of_disjoint (hx x hxs) (hy y hys) (hxy x hxs y hys)).symm
    simpa using hall.symm
  have hblock : Swappable (xs.flatMap fun x => [x]) ys := Swappable.flatMap_left hrow
  simpa using hblock

/-- Every operation is quiet and acts on given qubits. -/
def QuietOn (qubits : List Nat) (xs : List Action) : Prop :=
  ∀ x ∈ xs, x.isQuiet = true ∧ ∀ q ∈ x.qubits, q ∈ qubits

/-- Every operation has a map and acts on given qubits. -/
def InterpretedOn (qubits : List Nat) (xs : List Action) : Prop :=
  ∀ x ∈ xs, x.isInterpreted = true ∧ ∀ q ∈ x.qubits, q ∈ qubits

theorem QuietOn.interpretedOn {qubits : List Nat} {xs : List Action} (h : QuietOn qubits xs) :
    InterpretedOn qubits xs :=
  fun x hx => ⟨isInterpreted_of_isQuiet (h x hx).1, (h x hx).2⟩

theorem QuietOn.append {qubits : List Nat} {xs ys : List Action} (hx : QuietOn qubits xs)
    (hy : QuietOn qubits ys) : QuietOn qubits (xs ++ ys) :=
  fun x h => (List.mem_append.1 h).elim (hx x) (hy x)

/-- Blocks of items that share no qubits may be exchanged when those on one side are quiet. -/
theorem pairwise_swappable {ι : Type} {items : List ι} {f g : ι → List Action}
    {qubits : ι → List Nat} (hnodup : (items.flatMap qubits).Nodup)
    (hf : ∀ i ∈ items, QuietOn (qubits i) (f i))
    (hg : ∀ i ∈ items, InterpretedOn (qubits i) (g i)) :
    items.Pairwise fun i j => Swappable (f i) (g j) ∧ Swappable (g i) (f j) := by
  have happart := (List.nodup_flatMap.1 hnodup).2
  refine (List.Pairwise.and_mem.1 happart).imp fun {i j} ⟨hi, hj, hij⟩ => ⟨?_, ?_⟩
  · refine swappable_blocks (fun x hx => (hf i hi x hx).1) (fun y hy => (hg j hj y hy).1) ?_
    exact fun x hx y hy q hq hq' => hij ((hf i hi x hx).2 q hq) ((hg j hj y hy).2 q hq')
  · refine (swappable_blocks (fun x hx => (hf j hj x hx).1) (fun y hy => (hg i hi y hy).1) ?_).symm
    exact fun x hx y hy q hq hq' => hij ((hg i hi y hy).2 q hq') ((hf j hj x hx).2 q hq)

/-! ## Laws of rotations -/

theorem sameEffect_rotate_rotate (r s : Rotation) (q : Nat) :
    SameEffect [rotate r q, rotate s q] [rotate (r.andThen s) q] := by
  refine .of_map (by simp [results]) (by simp [results]) fun I outcome recorded => ?_
  simp only [meaning, map, one_mul, StateMap.rotate_andThen]

theorem sameEffect_rotate_identity (q : Nat) : SameEffect [rotate .identity q] [] := by
  refine .of_map (by simp [results]) (by simp) fun I outcome recorded => ?_
  simp only [meaning, map, one_mul, StateMap.rotate_identity]

theorem sameEffect_rotate_prepare (r : Rotation) (q : Nat) (b : Basis) :
    SameEffect [rotate r q, prepare q b] [prepare q b] := by
  refine .of_map (by simp [results]) (by simp [results]) fun I outcome recorded => ?_
  simp only [meaning, map, one_mul, StateMap.prepare_mul_rotate]

theorem sameEffect_prepare_toZ (q : Nat) (b : Basis) :
    SameEffect [prepare q .z, rotate (.toZ b) q] [prepare q b] := by
  refine .of_map (by simp [results]) (by simp [results]) fun I outcome recorded => ?_
  simp only [meaning, map, one_mul, StateMap.rotate_toZ_mul_prepare]

theorem sameEffect_toZ_toZ (b : Basis) (q : Nat) :
    SameEffect [rotate (.toZ b) q, rotate (.toZ b) q] [] := by
  have hid : (Rotation.toZ b).andThen (.toZ b) = .identity := by
    have h := Rotation.andThen_inverse (.toZ b)
    rwa [Rotation.inverse_toZ] at h
  have h := sameEffect_rotate_rotate (.toZ b) (.toZ b) q
  rw [hid] at h
  exact h.trans (sameEffect_rotate_identity q)

/-! ## Laws of pairs -/

theorem sameEffect_controlled_comm (P Q : Basis) (a b : Nat) :
    SameEffect [controlled P Q a b] [controlled Q P b a] := by
  refine .of_map (by simp [results]) (by simp [results]) fun I outcome recorded => ?_
  simp only [meaning, map, one_mul, StateMap.controlled_comm P Q a b]

theorem sameEffect_exchange_comm (a b : Nat) : SameEffect [exchange a b] [exchange b a] := by
  refine .of_map (by simp [results]) (by simp [results]) fun I outcome recorded => ?_
  simp only [meaning, map, one_mul, StateMap.exchange_comm a b]

theorem sameEffect_iswap_comm (a b : Nat) : SameEffect [iswap a b] [iswap b a] := by
  refine .of_map (by simp [results]) (by simp [results]) fun I outcome recorded => ?_
  simp only [meaning, map, one_mul, I.iswap_comm a b]

theorem sameEffect_exchange_rotate (r : Rotation) (a b : Nat) :
    SameEffect [exchange a b, rotate r b] [rotate r a, exchange a b] := by
  refine .of_map (by simp [results]) (by simp [results]) fun I outcome recorded => ?_
  simp only [meaning, map, one_mul, StateMap.exchange_mul_rotate]

theorem sameEffect_exchange_controlled (P Q : Basis) (a b : Nat) :
    SameEffect [exchange a b, controlled P Q b a] [controlled P Q a b, exchange a b] := by
  refine .of_map (by simp [results]) (by simp [results]) fun I outcome recorded => ?_
  simp only [meaning, map, one_mul, StateMap.exchange_mul_controlled]

theorem sameEffect_controlled_rotate {a b : Nat} (h : a ≠ b) (P Q : Basis) :
    SameEffect [controlled P Q a b, rotate (.toZ P) a]
      [rotate (.toZ P) a, controlled .z Q a b] := by
  refine .of_map (by simp [results]) (by simp [results]) fun I outcome recorded => ?_
  simp only [meaning, map, one_mul, StateMap.rotate_mul_controlled h]

theorem sameEffect_measure_rotate (r : Rotation) (q : Nat) (factors : List (Nat × Basis))
    (hpos : ∀ factor ∈ factors, factor.1 = q → (r.image factor.2).negative = false) :
    SameEffect [measure factors, rotate r q]
      [rotate r q, measure (factors.map (r.turnFactor q))] := by
  refine ⟨rfl, fun I outcome recorded => ?_⟩
  simp only [meaning, map, results, one_mul, Nat.add_zero,
    StateMap.rotate_mul_project r q factors _ hpos]

end Action

end StabCircuit
