import Mathlib.Data.List.Forall2
import StabCircuit.Circuit.Printer
import StabCircuit.Proofs.Builder.Calls

/-!
# Interactions of pairs of qubits

A request for a two-qubit gate on pairs of qubits is written as one instruction.  The
pairs are sorted before they are turned round, so the instruction does not depend on
the order in which the pairs are listed; requests that differ in the order of operands,
or in the name that fixes this order, name the same interactions and are written alike
as long as turning pairs round leaves them sorted.
-/

namespace StabCircuit

namespace Build

/-! ## Canonical order -/

section Sorting

variable {α : Type} {xs ys : List α}

/-- Of two things one comes first, or they are level. -/
theorem isLE_total {cmp : α → α → Ordering} [Std.OrientedCmp cmp] (a b : α) :
    ((cmp a b).isLE || (cmp b a).isLE) = true := by
  have hswap : cmp b a = (cmp a b).swap := Std.OrientedCmp.eq_swap
  rw [hswap]
  cases cmp a b <;> rfl

theorem pairwise_mergeSort_isLE (cmp : α → α → Ordering) [Std.TransCmp cmp] (xs : List α) :
    (xs.mergeSort fun a b => (cmp a b).isLE).Pairwise fun a b => (cmp a b).isLE = true :=
  List.pairwise_mergeSort (fun _ _ _ => Std.TransCmp.isLE_trans) isLE_total xs

/-- Where only equal things are level, sorted lists that rearrange each other are equal. -/
theorem eq_of_perm_of_pairwise_isLE (cmp : α → α → Ordering) [Std.OrientedCmp cmp]
    [Std.LawfulEqCmp cmp] (h : xs.Perm ys) (hxs : xs.Pairwise fun a b => (cmp a b).isLE = true)
    (hys : ys.Pairwise fun a b => (cmp a b).isLE = true) : xs = ys := by
  refine h.eq_of_pairwise (fun a b _ _ hab hba => ?_) hxs hys
  exact Std.LawfulEqCmp.eq_of_compare (Std.OrientedCmp.isLE_antisymm hab hba)

theorem mergeSort_isLE_eq_of_perm (cmp : α → α → Ordering) [Std.TransCmp cmp]
    [Std.LawfulEqCmp cmp] (h : xs.Perm ys) :
    xs.mergeSort (fun a b => (cmp a b).isLE) = ys.mergeSort fun a b => (cmp a b).isLE := by
  refine eq_of_perm_of_pairwise_isLE cmp ?_ (pairwise_mergeSort_isLE cmp xs)
    (pairwise_mergeSort_isLE cmp ys)
  exact (List.mergeSort_perm xs _).trans (h.trans (List.mergeSort_perm ys _).symm)

end Sorting

/-- Comparison of pairs by the first qubit, then by the second. -/
def comparePairs : Coord × Coord → Coord × Coord → Ordering :=
  compareLex (compareOn Prod.fst) (compareOn Prod.snd)

instance : Std.TransCmp comparePairs := by
  unfold comparePairs
  infer_instance

instance : Std.LawfulEqCmp comparePairs where
  eq_of_compare {p q} h := by
    have heq : compare p.1 q.1 = .eq ∧ compare p.2 q.2 = .eq := Ordering.then_eq_eq.1 h
    exact Prod.ext (Std.LawfulEqOrd.eq_of_compare heq.1) (Std.LawfulEqOrd.eq_of_compare heq.2)

/-- Pairs stand in canonical order. -/
def InOrder (pairs : List (Coord × Coord)) : Prop := pairs.Pairwise fun p q => pairLe p q = true

instance (pairs : List (Coord × Coord)) : Decidable (InOrder pairs) :=
  inferInstanceAs (Decidable (pairs.Pairwise _))

theorem inOrder_mergeSort (pairs : List (Coord × Coord)) : InOrder (pairs.mergeSort pairLe) :=
  pairwise_mergeSort_isLE comparePairs pairs

theorem InOrder.eq_of_perm {ps qs : List (Coord × Coord)} (hps : InOrder ps) (hqs : InOrder qs)
    (h : ps.Perm qs) : ps = qs :=
  eq_of_perm_of_pairwise_isLE comparePairs h hps hqs

theorem mergeSort_eq_of_inOrder {ps qs : List (Coord × Coord)} (h : ps.Perm qs)
    (hqs : InOrder qs) : ps.mergeSort pairLe = qs :=
  (inOrder_mergeSort ps).eq_of_perm hqs ((List.mergeSort_perm ps pairLe).trans h)

theorem mergeSort_eq_of_perm {ps qs : List (Coord × Coord)} (h : ps.Perm qs) :
    ps.mergeSort pairLe = qs.mergeSort pairLe :=
  mergeSort_isLE_eq_of_perm comparePairs h

theorem orientPair_swap (p : Coord × Coord) : orientPair p.swap = orientPair p := by
  have hswap : compare p.1 p.2 = (compare p.2 p.1).swap := Std.OrientedCmp.eq_swap
  unfold orientPair
  rw [Prod.fst_swap, Prod.snd_swap, hswap]
  cases hcompare : compare p.2 p.1 with
  | lt => rfl
  | gt => rfl
  | eq =>
    have hsame := Std.LawfulEqOrd.eq_of_compare hcompare
    exact Prod.ext hsame hsame.symm

/-! ## What is written -/

/-- The instruction of a gate on pairs of qubits. -/
def pairsInstruction (layout : OrderedMap Coord Nat) (g : Gate) (pairs : List (Coord × Coord)) :
    Instruction :=
  .onQubits g (pairs.flatMap fun p => [indexIn layout p.1, indexIn layout p.2]) []

/-- The builder after a gate on pairs of qubits was written; no pairs write nothing. -/
def writePairs (b : Builder) (g : Gate) (pairs : List (Coord × Coord)) : Builder :=
  if pairs.isEmpty then b
  else { b with circuit := b.circuit.push (pairsInstruction b.layout g pairs) }

/-- The qubits of all pairs have an index. -/
def Known (b : Builder) (pairs : List (Coord × Coord)) : Prop :=
  ∀ p ∈ pairs, (b.layout.get? p.1).isSome = true ∧ (b.layout.get? p.2).isSome = true

instance (b : Builder) (pairs : List (Coord × Coord)) : Decidable (Known b pairs) :=
  inferInstanceAs (Decidable (∀ p ∈ pairs, _))

variable {b : Builder} {name : String} {g : Gate} {ps qs : List (Coord × Coord)}

theorem indicesOf_of_isSome {qubits : List Coord}
    (h : ∀ q ∈ qubits, (b.layout.get? q).isSome = true) :
    b.indicesOf g qubits = .ok (qubits.map (indexIn b.layout)) := by
  have hmap : (qubits.map id).mapM (b.indexOf (some g.name)) =
      .ok (qubits.map (indexIn b.layout)) := by
    apply mapM_map_eq_ok
    intro q hq
    obtain ⟨index, hindex⟩ := Option.isSome_iff_exists.1 (h q hq)
    simp [Builder.indexOf, indexIn, hindex]
  rwa [List.map_id] at hmap

theorem make_pairs (hkind : g.kind.isPairwise = true) {indices : List Nat}
    (heven : indices.length % 2 = 0) :
    Instruction.make g.name (indices.map .qubit) [] = .ok (.onQubits g indices []) := by
  have hfault : Instruction.targetFault? g (indices.map .qubit) = none := by
    unfold Instruction.targetFault?
    cases hg : g.kind <;> simp_all [GateKind.isPairwise]
  simp [Instruction.make, hfault, Instruction.onQubits]

theorem known_of_perm (h : ps.Perm qs) (hps : Known b ps) : Known b qs := by
  intro p hp
  exact hps p (h.mem_iff.2 hp)

theorem known_map {f : Coord × Coord → Coord × Coord} (hf : ∀ p, f p = p ∨ f p = p.swap)
    (hps : Known b ps) : Known b (ps.map f) := by
  intro p hp
  obtain ⟨old, hold, rfl⟩ := List.mem_map.1 hp
  have hknown := hps old hold
  rcases hf old with hsame | hswap
  · rw [hsame]
    exact hknown
  · rw [hswap]
    exact hknown.symm

theorem orientPair_cases (p : Coord × Coord) : orientPair p = p ∨ orientPair p = p.swap := by
  unfold orientPair
  split
  · exact .inr rfl
  · exact .inl rfl

theorem known_arrangePairs (hps : Known b ps) : Known b (arrangePairs g ps).2 := by
  have hsorted := known_of_perm (List.mergeSort_perm ps pairLe).symm hps
  unfold arrangePairs
  cases g.reversed? with
  | none =>
    dsimp only
    split
    · exact known_map orientPair_cases hsorted
    · exact hsorted
  | some preferred =>
    have hswapped : Known b ((ps.mergeSort pairLe).map Prod.swap) :=
      known_map (fun _ => .inr rfl) hsorted
    dsimp only
    split
    · exact known_map orientPair_cases hswapped
    · exact hswapped

/-- A request over known qubits succeeds and writes the arranged pairs. -/
theorem outcome_gate2 (hg : Gate.lookup name = .ok g) (hkind : g.kind.isPairwise = true)
    (hps : Known b ps) :
    outcome (gate2 name ps) b =
      (.ok (), writePairs b (arrangePairs g ps).1 (arrangePairs g ps).2) := by
  have hknown : Known b (arrangePairs g ps).2 := known_arrangePairs hps
  have hpairwise := isPairwise_arrangePairs hkind ps
  rcases harranged : arrangePairs g ps with ⟨written, pairs⟩
  rw [harranged] at hknown hpairwise
  change Gives (gate2 name ps) b () (writePairs b written pairs)
  unfold gate2
  refine gives_bind.2 ⟨g, b, gives_ask.2 ⟨hg, rfl⟩, ?_⟩
  simp only [hkind, harranged, Bool.not_true, Bool.false_eq_true, if_false]
  unfold writePairs
  split
  · exact gives_pure.2 ⟨rfl, rfl⟩
  · have hqubits : ∀ q ∈ pairs.flatMap fun p => [p.1, p.2], (b.layout.get? q).isSome = true := by
      intro q hq
      obtain ⟨p, hp, hq⟩ := List.mem_flatMap.1 hq
      have hboth := hknown p hp
      rcases List.mem_pair.1 hq with rfl | rfl
      · exact hboth.1
      · exact hboth.2
    refine gives_bind.2 ⟨_, b, gives_ask.2 ⟨indicesOf_of_isSome hqubits, rfl⟩, ?_⟩
    refine gives_append.2 ⟨_, make_pairs hpairwise ?_, ?_⟩
    · simp
    · simp [pairsInstruction, List.map_flatMap]

theorem known_of_known_map {f : Coord × Coord → Coord × Coord} (hf : ∀ p, f p = p ∨ f p = p.swap)
    (hps : Known b (ps.map f)) : Known b ps := by
  intro p hp
  have hknown := hps (f p) (List.mem_map_of_mem hp)
  rcases hf p with hsame | hswap
  · rwa [hsame] at hknown
  · rw [hswap] at hknown
    exact hknown.symm

theorem known_of_known_arrangePairs (h : Known b (arrangePairs g ps).2) : Known b ps := by
  refine known_of_perm (List.mergeSort_perm ps pairLe) ?_
  unfold arrangePairs at h
  cases hreversed : g.reversed? with
  | none =>
    rw [hreversed] at h
    dsimp only at h
    split at h
    · exact known_of_known_map orientPair_cases h
    · exact h
  | some preferred =>
    rw [hreversed] at h
    dsimp only at h
    split at h
    · exact known_of_known_map (fun _ => .inr rfl) (known_of_known_map orientPair_cases h)
    · exact known_of_known_map (fun _ => .inr rfl) h

/-- A request that succeeds is over known qubits and has written the arranged pairs. -/
theorem gives_gate2 {b' : Builder} (hg : Gate.lookup name = .ok g)
    (h : Gives (gate2 name ps) b () b') :
    Known b ps ∧ writePairs b (arrangePairs g ps).1 (arrangePairs g ps).2 = b' := by
  have hcases : g.kind.isPairwise = true ∧ Known b (arrangePairs g ps).2 := by
    unfold gate2 at h
    obtain ⟨requested, mid, hask, h⟩ := gives_bind.1 h
    obtain ⟨hrequested, rfl⟩ := gives_ask.1 hask
    obtain rfl : g = requested := Except.ok.inj (hg.symm.trans hrequested)
    dsimp only at h
    split at h
    · obtain ⟨_, _, hthrow, -⟩ := gives_bind.1 h
      exact absurd hthrow not_gives_throw
    · next hkind =>
      refine ⟨by simpa using hkind, ?_⟩
      intro p hp
      split at h
      · next hempty =>
        rw [List.isEmpty_iff.1 hempty] at hp
        cases hp
      · obtain ⟨indices, mid, hask, -⟩ := gives_bind.1 h
        have hsome := isSome_of_indicesOf (gives_ask.1 hask).1
        exact ⟨hsome p.1 (List.mem_flatMap.2 ⟨p, hp, by simp⟩),
          hsome p.2 (List.mem_flatMap.2 ⟨p, hp, by simp⟩)⟩
  have hknown := known_of_known_arrangePairs hcases.2
  have hwritten := outcome_gate2 hg hcases.1 hknown
  exact ⟨hknown, (Prod.mk.inj (hwritten.symm.trans h)).2⟩

/-! ## Requests for the same interactions -/

theorem arrangePairs_of_isSymmetric (h : g.isSymmetric = true) :
    arrangePairs g ps = (g, (ps.mergeSort pairLe).map orientPair) := by
  have hnone : g.reversed? = none := by
    unfold Gate.reversed?
    split
    · cases h
    · cases h
    · cases h
    · rfl
  simp [arrangePairs, hnone, h]

theorem arrangePairs_of_reversed? {preferred : Gate} (h : g.reversed? = some preferred)
    (ps qs : List (Coord × Coord)) :
    arrangePairs g ps = (preferred, (ps.mergeSort pairLe).map Prod.swap) ∧
      arrangePairs preferred qs = (preferred, qs.mergeSort pairLe) := by
  have hplain : preferred.isSymmetric = false ∧ preferred.reversed? = none := by
    unfold Gate.reversed? at h
    split at h <;> cases h <;> exact ⟨rfl, rfl⟩
  simp [arrangePairs, h, hplain]

theorem arrangePairs_eq_of_perm (h : ps.Perm qs) : arrangePairs g ps = arrangePairs g qs := by
  unfold arrangePairs
  rw [mergeSort_eq_of_perm h]

/-- Each pair is the same or has its operands exchanged. -/
def Exchanged (ps qs : List (Coord × Coord)) : Prop :=
  List.Forall₂ (fun p q => q = p ∨ q = p.swap) ps qs

theorem map_orientPair_of_exchanged (h : Exchanged ps qs) :
    qs.map orientPair = ps.map orientPair := by
  induction h with
  | nil => rfl
  | cons hpair _ ih =>
    rw [List.map_cons, List.map_cons, ih]
    rcases hpair with rfl | rfl
    · rfl
    · rw [orientPair_swap]

/-- The written pairs are the same up to their order. -/
theorem arrangePairs_perm_of_exchanged (h : g.isSymmetric = true) (hpairs : Exchanged ps qs) :
    (arrangePairs g qs).2.Perm (arrangePairs g ps).2 := by
  rw [arrangePairs_of_isSymmetric h, arrangePairs_of_isSymmetric h]
  have hsorted := fun pairs => (List.mergeSort_perm pairs pairLe).map orientPair
  have horiented := map_orientPair_of_exchanged hpairs
  exact (hsorted qs).trans (horiented ▸ (hsorted ps).symm)

theorem arrangePairs_perm_of_reversed? {preferred : Gate} (h : g.reversed? = some preferred) :
    (arrangePairs preferred (ps.map Prod.swap)).2.Perm (arrangePairs g ps).2 := by
  obtain ⟨hwritten, hpreferred⟩ := arrangePairs_of_reversed? h ps (ps.map Prod.swap)
  rw [hwritten, hpreferred]
  exact (List.mergeSort_perm _ pairLe).trans ((List.mergeSort_perm ps pairLe).map Prod.swap).symm

theorem known_of_exchanged (h : Exchanged ps qs) (hps : Known b ps) : Known b qs := by
  induction h with
  | nil => exact hps
  | cons hpair _ ih =>
    obtain ⟨hfirst, hrest⟩ := List.forall_mem_cons.1 hps
    refine List.forall_mem_cons.2 ⟨?_, ih hrest⟩
    rcases hpair with rfl | rfl
    · exact hfirst
    · exact hfirst.symm

/-- Two requests name the same interactions: they are written with one gate on the same pairs, and
as the same instruction when both write their pairs in canonical order. -/
structure WrittenAlike (b : Builder) (name : String) (g : Gate) (ps : List (Coord × Coord))
    (name' : String) (g' : Gate) (qs : List (Coord × Coord)) : Prop where
  gate : (arrangePairs g ps).1 = (arrangePairs g' qs).1
  pairs : (arrangePairs g ps).2.Perm (arrangePairs g' qs).2
  outcome : InOrder (arrangePairs g ps).2 → InOrder (arrangePairs g' qs).2 →
    outcome (gate2 name ps) b = outcome (gate2 name' qs) b

theorem writtenAlike {name' : String} {g' : Gate} (hg : Gate.lookup name = .ok g)
    (hkind : g.kind.isPairwise = true) (hps : Known b ps) (hg' : Gate.lookup name' = .ok g')
    (hkind' : g'.kind.isPairwise = true) (hqs : Known b qs)
    (hgate : (arrangePairs g ps).1 = (arrangePairs g' qs).1)
    (hpairs : (arrangePairs g ps).2.Perm (arrangePairs g' qs).2) :
    WrittenAlike b name g ps name' g' qs where
  gate := hgate
  pairs := hpairs
  outcome := by
    intro hp hq
    rw [outcome_gate2 hg hkind hps, outcome_gate2 hg' hkind' hqs, hgate, hp.eq_of_perm hq hpairs]

/-- A request for a two-qubit gate on known qubits writes its arranged pairs in one instruction,
whatever the order in which they are listed.  Exchanging operands of a symmetric gate, and asking
for the preferred gate with exchanged operands, are requests for the same interactions. -/
theorem gate2_writtenAlike {b : Builder} {name : String} {g : Gate} {ps : List (Coord × Coord)}
    (hg : Gate.lookup name = .ok g) (hkind : g.kind.isPairwise = true) (hps : Known b ps) :
    outcome (gate2 name ps) b =
        (.ok (), writePairs b (arrangePairs g ps).1 (arrangePairs g ps).2) ∧
      (∀ qs, ps.Perm qs → outcome (gate2 name ps) b = outcome (gate2 name qs) b) ∧
      (g.isSymmetric = true → ∀ qs, Exchanged ps qs → WrittenAlike b name g ps name g qs) ∧
      ∀ preferred, g.reversed? = some preferred →
        WrittenAlike b name g ps preferred.name preferred (ps.map Prod.swap) := by
  refine ⟨outcome_gate2 hg hkind hps, ?_, ?_, ?_⟩
  · intro qs hperm
    rw [outcome_gate2 hg hkind hps, outcome_gate2 hg hkind (known_of_perm hperm hps),
      arrangePairs_eq_of_perm hperm]
  · intro hsymmetric qs hexchanged
    apply writtenAlike hg hkind hps hg hkind (known_of_exchanged hexchanged hps)
    · rw [arrangePairs_of_isSymmetric hsymmetric, arrangePairs_of_isSymmetric hsymmetric]
    · exact (arrangePairs_perm_of_exchanged hsymmetric hexchanged).symm
  · intro preferred hreversed
    obtain ⟨hwritten, hpreferred⟩ := arrangePairs_of_reversed? hreversed ps (ps.map Prod.swap)
    have hpairwise := isPairwise_arrangePairs hkind ps
    rw [hwritten] at hpairwise
    apply writtenAlike hg hkind hps (Gate.lookup_name preferred) hpairwise
      (known_map (fun _ => .inr rfl) hps)
    · rw [hwritten, hpreferred]
    · exact (arrangePairs_perm_of_reversed? hreversed).symm

/-- Three qubits in a row. -/
def rowOfThree : Builder := .forQubits [.make 0 0, .make 1 0, .make 2 0]

/-- A pair of qubits of the row, by their places. -/
def rowPair (first second : Nat) : Coord × Coord :=
  (.make (Scalar.ofNat first) 0, .make (Scalar.ofNat second) 0)

theorem gate2_writtenAlike_row :
    Known rowOfThree [rowPair 1 0, rowPair 2 1] ∧
      outcome (gate2 "CZSWAP" [rowPair 1 0, rowPair 2 1]) rowOfThree =
        outcome (gate2 "CZSWAP" [rowPair 0 1, rowPair 2 1]) rowOfThree := by
  have hknown : Known rowOfThree [rowPair 1 0, rowPair 2 1] := by decide +kernel
  have hexchanged : Exchanged [rowPair 1 0, rowPair 2 1] [rowPair 0 1, rowPair 2 1] :=
    .cons (.inr rfl) (.cons (.inl rfl) .nil)
  have halike := (gate2_writtenAlike (Gate.lookup_name .czSwap) rfl hknown).2.2.1 rfl _ hexchanged
  have hsorted : InOrder [rowPair 1 0, rowPair 2 1] ∧ InOrder [rowPair 0 1, rowPair 2 1] := by
    decide +kernel
  have horiented : InOrder ([rowPair 1 0, rowPair 2 1].map orientPair) ∧
      InOrder ([rowPair 0 1, rowPair 2 1].map orientPair) := by
    decide +kernel
  refine ⟨hknown, halike.outcome ?_ ?_⟩
  · rw [arrangePairs_of_isSymmetric rfl, mergeSort_eq_of_inOrder (.refl _) hsorted.1]
    exact horiented.1
  · rw [arrangePairs_of_isSymmetric rfl, mergeSort_eq_of_inOrder (.refl _) hsorted.2]
    exact horiented.2

/-- Pairs that are turned round after sorting may be written out of order, so that neither the
order of the operands of a symmetric gate nor the choice between a gate and the preferred one is
immaterial. -/
theorem gate2_pairsOutOfOrder :
    (¬ ∀ (b : Builder) (name : String) (g : Gate) (ps qs : List (Coord × Coord)),
        Gate.lookup name = .ok g → g.kind.isPairwise = true → Known b ps →
        g.isSymmetric = true → Exchanged ps qs →
        outcome (gate2 name ps) b = outcome (gate2 name qs) b) ∧
      ¬ ∀ (b : Builder) (name : String) (g preferred : Gate) (ps : List (Coord × Coord)),
        Gate.lookup name = .ok g → g.kind.isPairwise = true → Known b ps →
        g.reversed? = some preferred →
        outcome (gate2 name ps) b = outcome (gate2 preferred.name (ps.map Prod.swap)) b := by
  constructor
  · intro hall
    have hps : Known rowOfThree [rowPair 2 0, rowPair 1 2] := by decide +kernel
    have hqs : Known rowOfThree [rowPair 0 2, rowPair 1 2] := by decide +kernel
    have hname := Gate.lookup_name (.controlled .z .z)
    have hsame := hall rowOfThree _ _ _ [rowPair 0 2, rowPair 1 2] hname rfl hps rfl
      (.cons (.inr rfl) (.cons (.inl rfl) .nil))
    have hsorted : InOrder [rowPair 1 2, rowPair 2 0] ∧ InOrder [rowPair 0 2, rowPair 1 2] := by
      decide +kernel
    rw [outcome_gate2 hname rfl hps, outcome_gate2 hname rfl hqs,
      arrangePairs_of_isSymmetric rfl, arrangePairs_of_isSymmetric rfl,
      mergeSort_eq_of_inOrder (.swap _ _ _) hsorted.1,
      mergeSort_eq_of_inOrder (.refl _) hsorted.2] at hsame
    have htexts := congrArg (fun result => Circuit.text result.2.circuit) hsame
    revert htexts
    decide +kernel
  · intro hall
    have hps : Known rowOfThree [rowPair 0 2, rowPair 1 0] := by decide +kernel
    have hqs : Known rowOfThree [rowPair 2 0, rowPair 0 1] := by decide +kernel
    have hname := Gate.lookup_name (.controlled .x .z)
    have hpreferred := Gate.lookup_name (.controlled .z .x)
    have hsame := hall rowOfThree _ _ (.controlled .z .x) _ hname rfl hps rfl
    have hsorted : InOrder [rowPair 0 2, rowPair 1 0] ∧ InOrder [rowPair 0 1, rowPair 2 0] := by
      decide +kernel
    have harranged := fun qs => arrangePairs_of_reversed? (g := .controlled .x .z) rfl
      [rowPair 0 2, rowPair 1 0] qs
    change _ = outcome (gate2 _ [rowPair 2 0, rowPair 0 1]) _ at hsame
    rw [outcome_gate2 hname rfl hps, outcome_gate2 hpreferred rfl hqs,
      (harranged []).1, (harranged _).2,
      mergeSort_eq_of_inOrder (.refl _) hsorted.1,
      mergeSort_eq_of_inOrder (.swap _ _ _) hsorted.2] at hsame
    have htexts := congrArg (fun result => Circuit.text result.2.circuit) hsame
    revert htexts
    decide +kernel

end Build

end StabCircuit
