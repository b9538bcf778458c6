import Mathlib.Tactic.ByContra
import StabCircuit.Circuit.Count
import StabCircuit.Proofs.Circuit.Vocabulary

/-!
# Checked instructions and their joins

An instruction made by `Instruction.make` has a canonical name and targets that
its gate accepts.  Appending such an instruction to a circuit may join it to the
last one; the pieces of the joined instruction are those of the first followed by
those of the second, so joining never merges or splits a pair or a product.
-/

namespace StabCircuit

/-! ## Pieces of joined target lists -/

namespace Target

theorem eq_combiner {t : Target} (h : t.isCombiner = true) : t = combiner := by
  cases t with
  | combiner => rfl
  | qubit _ | pauli _ _ | record _ | sweep _ => cases h

theorem extendProduct_append {group : List Target} {joining : Bool} {s t : List Target}
    (hempty : s = [] → joining = false)
    (hlast : s.getLast?.any isCombiner = false) (hhead : t.head?.any isCombiner = false) :
    extendProduct group joining (s ++ t) = extendProduct group joining s ++ productGroups t := by
  -- The open product and the flag change along `s`; the flag is down once `s` is used up.
  induction s generalizing group joining with
  | nil =>
    obtain rfl : joining = false := hempty rfl
    cases t with
    | nil => rfl
    | cons a rest =>
      have ha : a.isCombiner = false := by simpa using hhead
      simp [extendProduct, productGroups, ha]
  | cons a rest ih =>
    have hrest : rest.getLast?.any isCombiner = false := by
      cases rest with
      | nil => rfl
      | cons b more => simpa using hlast
    by_cases ha : a.isCombiner
    · have hne : rest = [] → true = false := by
        rintro rfl
        simp [ha] at hlast
      simp only [List.cons_append, extendProduct, ha, if_true]
      exact ih hne hrest
    · simp only [List.cons_append, extendProduct, ha, Bool.false_eq_true, if_false]
      split
      · exact ih (fun _ => rfl) hrest
      · rw [ih (fun _ => rfl) hrest, List.cons_append]

/-- Products of two target lists, the first not ending and the second not beginning with a
combiner, stay apart. -/
theorem productGroups_append {s t : List Target}
    (hlast : s.getLast?.any isCombiner = false) (hhead : t.head?.any isCombiner = false) :
    productGroups (s ++ t) = productGroups s ++ productGroups t := by
  induction s with
  | nil => rfl
  | cons a rest ih =>
    have hrest : rest.getLast?.any isCombiner = false := by
      cases rest with
      | nil => rfl
      | cons b more => simpa using hlast
    by_cases ha : a.isCombiner
    · simp only [List.cons_append, productGroups, ha, if_true]
      exact ih hrest
    · simp only [List.cons_append, productGroups, ha, Bool.false_eq_true, if_false]
      exact extendProduct_append (fun _ => rfl) hrest hhead

/-- Pairs of two target lists, the first of even length, stay apart. -/
theorem pairs_append {s t : List Target} (heven : s.length % 2 = 0) :
    pairs (s ++ t) = pairs s ++ pairs t := by
  induction s using pairs.induct with
  | case1 => rfl
  | case2 a => simp at heven
  | case3 a b rest ih =>
    have hrest : rest.length % 2 = 0 := by
      simp only [List.length_cons] at heven
      omega
    simp only [List.cons_append, pairs, ih hrest]

end Target

/-! ## Checked instructions -/

namespace Instruction

/-- The name is canonical and the gate accepts the targets. -/
def IsChecked (i : Instruction) : Prop := make i.name i.targets i.args = .ok i

theorem isChecked_of_make {name : String} {targets : List Target} {args : List Scalar}
    {i : Instruction} (h : make name targets args = .ok i) :
    ∃ g, Gate.lookup name = .ok g ∧ targetFault? g targets = none ∧
      i = { name := g.name, targets, args } := by
  unfold make at h
  split at h
  · cases h
  · next g hg =>
    split at h
    · cases h
    · next hfault =>
      cases h
      exact ⟨g, hg, hfault, rfl⟩

theorem isChecked_iff {i : Instruction} :
    i.IsChecked ↔ ∃ g : Gate, i.name = g.name ∧ targetFault? g i.targets = none := by
  constructor
  · intro h
    obtain ⟨g, -, hfault, hi⟩ := isChecked_of_make h
    exact ⟨g, by rw [hi], hfault⟩
  · rintro ⟨g, hname, hfault⟩
    obtain ⟨name, targets, args⟩ := i
    subst hname
    simp [IsChecked, make, hfault]

theorem isChecked_iff_gate? {i : Instruction} :
    i.IsChecked ↔
      i.gate?.any (fun g => i.name == g.name && (targetFault? g i.targets).isNone) = true := by
  rw [isChecked_iff]
  constructor
  · rintro ⟨g, hname, hfault⟩
    simp [gate?, hname, hfault]
  · intro h
    obtain ⟨g, -, h⟩ := (Option.any_eq_true _ _).1 h
    simp only [Bool.and_eq_true, beq_iff_eq, Option.isNone_iff_eq_none] at h
    exact ⟨g, h⟩

instance : DecidablePred IsChecked := fun _ => decidable_of_iff _ isChecked_iff_gate?.symm

/-- What `make` returns is checked. -/
theorem IsChecked.of_make {name : String} {targets : List Target} {args : List Scalar}
    {i : Instruction} (h : make name targets args = .ok i) : i.IsChecked := by
  obtain ⟨g, -, hfault, rfl⟩ := isChecked_of_make h
  exact isChecked_iff.2 ⟨g, rfl, hfault⟩

theorem gate?_of_name {i : Instruction} {g : Gate} (h : i.name = g.name) : i.gate? = some g := by
  rw [gate?, h, Gate.ofName?_name]

theorem kind_of_gate? {i : Instruction} {g : Gate} (h : i.gate? = some g) : i.kind = g.kind := by
  simp [kind, h]

/-- A checked instruction has a gate. -/
theorem IsChecked.exists_gate {i : Instruction} (h : i.IsChecked) :
    ∃ g : Gate, i.name = g.name ∧ i.gate? = some g ∧ i.kind = g.kind ∧
      targetFault? g i.targets = none := by
  obtain ⟨g, hname, hfault⟩ := isChecked_iff.1 h
  have hgate := gate?_of_name hname
  exact ⟨g, hname, hgate, kind_of_gate? hgate, hfault⟩

theorem isChecked_tick : Instruction.tick.IsChecked :=
  isChecked_iff.2 ⟨.tick, rfl, rfl⟩

/-- Two instructions as one, with the name and arguments of the first. -/
def join (last next : Instruction) : Instruction :=
  { last with targets := last.targets ++ next.targets }

/-- What instructions that merge have in common. -/
theorem exists_gate_of_fuses {last next : Instruction}
    (hlast : last.IsChecked) (hnext : next.IsChecked) (h : Circuit.fuses last next = true) :
    ∃ g : Gate, g.isFusable = true ∧ last.name = g.name ∧ next.name = g.name ∧
      targetFault? g last.targets = none ∧ targetFault? g next.targets = none ∧
      Scalar.listNumEq last.args next.args = true := by
  obtain ⟨g, hname, hfault⟩ := isChecked_iff.1 hlast
  obtain ⟨g', hname', hfault'⟩ := isChecked_iff.1 hnext
  simp only [Circuit.fuses, gate?_of_name hname', Option.any_some, Bool.and_eq_true,
    beq_iff_eq] at h
  obtain ⟨⟨hfusable, hsame⟩, hargs⟩ := h
  obtain rfl : g' = g := Gate.name_injective (by rw [← hname', ← hname, hsame])
  exact ⟨g', hfusable, hname, hname', hfault, hfault', hargs⟩

/-- What the check of product targets asks for. -/
theorem targetFault?_product_iff {g : Gate} {ts : List Target}
    (h : g.kind = .measureProduct ∨ g.kind = .noiseProduct) :
    targetFault? g ts = none ↔ ts.head?.any Target.isCombiner = false ∧
      ts.getLast?.any Target.isCombiner = false ∧
      ∀ t ∈ ts, t.isPauli = true ∨ t.isCombiner = true := by
  have hcase : targetFault? g ts = none ↔ ((ts.head?.any Target.isCombiner ||
      ts.getLast?.any Target.isCombiner) ||
      ts.any fun t => !t.isPauli && !t.isCombiner) = false := by
    unfold targetFault?
    rcases h with h | h <;> simp only [h, ite_eq_right_iff, reduceCtorEq, imp_false,
      Bool.not_eq_true]
  rw [hcase]
  simp only [Bool.or_eq_false_iff, and_assoc, List.any_eq_false, Bool.and_eq_true,
    Bool.not_eq_true', not_and, Bool.not_eq_false]
  refine and_congr_right fun _ => and_congr_right fun _ => forall₂_congr fun t _ => ?_
  cases t.isPauli <;> simp

theorem targetFault?_append {g : Gate} {s t : List Target} (hfusable : g.isFusable = true)
    (hs : targetFault? g s = none) (ht : targetFault? g t = none) :
    targetFault? g (s ++ t) = none := by
  by_cases hproduct : g.kind = .measureProduct
  · have hiff := fun ts => @targetFault?_product_iff g ts (Or.inl hproduct)
    obtain ⟨hhead, -, hall⟩ := (hiff s).1 hs
    obtain ⟨-, hlast, hall'⟩ := (hiff t).1 ht
    cases s with
    | nil => exact ht
    | cons a s =>
      cases t with
      | nil => simpa using hs
      | cons b t =>
        refine (hiff _).2 ⟨hhead, ?_, fun t ht => (List.mem_append.1 ht).elim (hall t) (hall' t)⟩
        rw [List.getLast?_append]
        rw [List.getLast?_cons] at hlast ⊢
        exact hlast
  unfold targetFault? at hs ht ⊢
  cases hkind : g.kind <;> simp only [hkind] at hs ht ⊢
  case metadata => simp [Gate.isFusable, hkind] at hfusable
  case tick => simp [Gate.isFusable, hkind] at hfusable
  case noiseProduct => simp [Gate.isFusable, hkind] at hfusable
  case measureProduct => exact absurd hkind hproduct
  case clifford2 | noise2 =>
    have hs' : s.length % 2 = 0 := by simpa using hs
    have ht' : t.length % 2 = 0 := by simpa using ht
    rw [if_pos]
    rw [List.length_append]
    omega
  all_goals
    rw [if_neg]
    rintro ⟨rfl | rfl, -⟩ <;> simp [Gate.kind] at hkind

/-- The join of two checked instructions that merge is checked. -/
theorem IsChecked.join {last next : Instruction} (hlast : last.IsChecked)
    (hnext : next.IsChecked) (h : Circuit.fuses last next = true) :
    (last.join next).IsChecked := by
  obtain ⟨g, hfusable, hname, -, hs, ht, -⟩ := exists_gate_of_fuses hlast hnext h
  exact isChecked_iff.2 ⟨g, hname, targetFault?_append hfusable hs ht⟩

theorem kind_join (last next : Instruction) : (last.join next).kind = last.kind := rfl

/-- The pieces of a join are those of the two instructions. -/
theorem targetGroups_join {last next : Instruction} (hlast : last.IsChecked)
    (hnext : next.IsChecked) (h : Circuit.fuses last next = true) :
    (last.join next).targetGroups = last.targetGroups ++ next.targetGroups := by
  obtain ⟨g, hfusable, hname, hname', hs, ht, -⟩ := exists_gate_of_fuses hlast hnext h
  have hkind : last.kind = g.kind := kind_of_gate? (gate?_of_name hname)
  have hkind' : next.kind = g.kind := kind_of_gate? (gate?_of_name hname')
  unfold targetGroups
  rw [kind_join, hkind, hkind']
  cases hg : g.kind
  case metadata => simp [Gate.isFusable, hg] at hfusable
  case tick => simp [Gate.isFusable, hg] at hfusable
  case noiseProduct => simp [Gate.isFusable, hg] at hfusable
  case clifford2 | noise2 =>
    have heven : last.targets.length % 2 = 0 := by simpa [targetFault?, hg] using hs
    exact Target.pairs_append heven
  case measureProduct =>
    have hs' := (targetFault?_product_iff (Or.inl hg)).1 hs
    have ht' := (targetFault?_product_iff (Or.inl hg)).1 ht
    exact Target.productGroups_append hs'.2.1 ht'.1
  all_goals
    simp [join]

/-- Equal numbers stand at the same position. -/
theorem position_eq_of_listNumEq {xs ys : List Scalar} (h : Scalar.listNumEq xs ys = true) :
    xs.map Scalar.position = ys.map Scalar.position := by
  induction xs generalizing ys with
  | nil =>
    cases ys with
    | nil => rfl
    | cons y ys => simp [Scalar.listNumEq] at h
  | cons x xs ih =>
    cases ys with
    | nil => simp [Scalar.listNumEq] at h
    | cons y ys =>
      simp only [Scalar.listNumEq, Scalar.numEq, Bool.and_eq_true, beq_iff_eq] at h
      simp only [List.map_cons, h.1.2, ih h.2]

end Instruction

end StabCircuit
