import Mathlib.Data.List.Perm.Basic
import StabCircuit.Proofs.Meaning.Actions

/-!
# Conjugation of products of Paulis

The coefficient that a state has at a string after some operations is the one that it had
before at the string conjugated backwards through them.  A controlled Pauli multiplies X on
its control by its Pauli on the target, and keeps a string that commutes with both of its
sides.  So check qubits that control Paulis on data qubits, in whatever order, turn X on a
check qubit into its product with the Paulis that it controls.
-/

namespace StabCircuit

/-! ## Strings of products -/

/-- The string of a product of Paulis on qubits, without its phase. -/
def stringOf (factors : List (Nat × Basis)) : PauliString :=
  (multiplyFactors factors (0, fun _ => none)).2

variable {factors : List (Nat × Basis)} {factor : Nat × Basis} {q : Nat}

theorem stringOf_of_notMem (h : q ∉ factors.map Prod.fst) : stringOf factors q = none :=
  multiplyFactors_of_notMem h (0, fun _ => none)

theorem stringOf_cons (h : factor.1 ∉ factors.map Prod.fst) :
    stringOf (factor :: factors) = Function.update (stringOf factors) factor.1 (some factor.2) := by
  have hstep : stringOf (factor :: factors) =
      Function.update (stringOf factors) factor.1 (factor.2.times (stringOf factors factor.1)) :=
    rfl
  rw [hstep, stringOf_of_notMem h]
  rfl

/-- Paulis on different qubits multiply without a phase. -/
theorem multiplyFactors_eq_stringOf (h : (factors.map Prod.fst).Nodup) :
    multiplyFactors factors (0, fun _ => none) = (0, stringOf factors) := by
  refine Prod.ext ?_ rfl
  induction factors with
  | nil => rfl
  | cons factor factors ih =>
    rw [List.map_cons, List.nodup_cons] at h
    have hphase : (multiplyFactors (factor :: factors) (0, fun _ => none)).1 =
        (multiplyFactors factors (0, fun _ => none)).1 +
          factor.2.phase (stringOf factors factor.1) := rfl
    rw [hphase, ih h.2, stringOf_of_notMem h.1]
    rfl

/-- What a product has on a qubit is one of its factors. -/
theorem mem_of_stringOf_eq_some (hnodup : (factors.map Prod.fst).Nodup) {b : Basis}
    (h : stringOf factors q = some b) : (q, b) ∈ factors := by
  induction factors with
  | nil => cases h
  | cons factor factors ih =>
    rw [List.map_cons, List.nodup_cons] at hnodup
    rw [stringOf_cons hnodup.1] at h
    by_cases hq : q = factor.1
    · rw [hq, Function.update_self, Option.some.injEq] at h
      rw [hq, ← h]
      exact List.mem_cons_self
    · rw [Function.update_of_ne hq] at h
      exact List.mem_cons_of_mem _ (ih hnodup.2 h)

/-- Paulis on different qubits may be multiplied in any order. -/
theorem stringOf_perm {factors' : List (Nat × Basis)} (h : factors.Perm factors')
    (hnodup : (factors.map Prod.fst).Nodup) : stringOf factors = stringOf factors' := by
  induction h with
  | nil => rfl
  | cons factor hperm ih =>
    rw [List.map_cons, List.nodup_cons] at hnodup
    rw [stringOf_cons hnodup.1, ih hnodup.2,
      stringOf_cons ((hperm.map Prod.fst).mem_iff.not.1 hnodup.1)]
  | swap a b rest =>
    simp only [List.map_cons, List.nodup_cons, List.mem_cons, not_or] at hnodup
    obtain ⟨⟨hne, hb⟩, ha, -⟩ := hnodup
    have hb' : b.1 ∉ (a :: rest).map Prod.fst := by
      rw [List.map_cons, List.mem_cons, not_or]
      exact ⟨hne, hb⟩
    have ha' : a.1 ∉ (b :: rest).map Prod.fst := by
      rw [List.map_cons, List.mem_cons, not_or]
      exact ⟨Ne.symm hne, ha⟩
    rw [stringOf_cons hb', stringOf_cons ha, stringOf_cons ha', stringOf_cons hb,
      Function.update_comm (Ne.symm hne)]
  | trans hperm _ ih ih' =>
    rw [ih hnodup, ih' ((hperm.map Prod.fst).nodup_iff.1 hnodup)]

/-! ## Conjugation by operations -/

namespace Action

/-- Conjugated backwards through operations, a string becomes another one, with positive sign: the
coefficient that any state has at the first afterwards is the one at the second before. -/
def PullsBack (xs : List Action) (s t : PauliString) : Prop :=
  ∀ (I : Interpretation) (outcome : Nat → Bool) (recorded : Nat) (c : Coefficients),
    meaning I outcome recorded xs c s = c t

/-- Conjugated backwards through operations, a product of Paulis becomes another one, and both
have positive sign. -/
def ConjugatesTo (xs : List Action) (factors factors' : List (Nat × Basis)) : Prop :=
  ∃ s t, multiplyFactors factors (0, fun _ => none) = (0, s) ∧
    multiplyFactors factors' (0, fun _ => none) = (0, t) ∧ PullsBack xs s t

variable {xs ys : List Action} {s t u : PauliString}

theorem pullsBack_nil (s : PauliString) : PullsBack [] s s := fun _ _ _ _ => rfl

/-- The last operations come first. -/
theorem PullsBack.append (h : PullsBack ys s t) (h' : PullsBack xs t u) :
    PullsBack (xs ++ ys) s u := by
  intro I outcome recorded c
  rw [meaning_append, Module.End.mul_apply, h, h']

theorem PullsBack.of_sameEffect (h : PullsBack xs s t) (heffect : SameEffect ys xs) :
    PullsBack ys s t := by
  intro I outcome recorded c
  rw [heffect.map]
  exact h I outcome recorded c

theorem pullsBack_controlled {P Q : Basis} {a b : Nat} (h : a ≠ b)
    (hsign : StateMap.controlledSign P Q (s a, s b) = 1)
    (himage : StateMap.place s a b (StateMap.controlledImage P Q (s a, s b)) = t) :
    PullsBack [controlled P Q a b] s t := by
  intro I outcome recorded c
  have hmap : meaning I outcome recorded [controlled P Q a b] =
      StateMap.onPair (StateMap.controlledSign P Q) (StateMap.controlledImage P Q) a b := by
    rw [meaning, meaning, one_mul, map, StateMap.controlled, if_neg h]
  rw [hmap, StateMap.onPair, StateMap.substitute_apply, hsign, himage, one_mul]

/-- A controlled Pauli multiplies X on its control by its Pauli on the target. -/
theorem pullsBack_controlled_of_x {Q : Basis} {a b : Nat} (h : a ≠ b) (ha : s a = some .x)
    (hb : s b = none) :
    PullsBack [controlled .z Q a b] s (Function.update s b (some Q)) := by
  have htable : ∀ Q : Basis, StateMap.controlledSign .z Q (some .x, none) = 1 ∧
      StateMap.controlledImage .z Q (some .x, none) = (some .x, some Q) := by decide +kernel
  apply pullsBack_controlled h
  · rw [ha, hb]
    exact (htable Q).1
  · rw [ha, hb, (htable Q).2, StateMap.place, ← ha, Function.update_eq_self]

/-- A controlled Pauli keeps what commutes with both of its sides. -/
theorem pullsBack_controlled_of_commute {P Q : Basis} {a b : Nat} (h : a ≠ b)
    (ha : P.clashes (s a) = false) (hb : Q.clashes (s b) = false) :
    PullsBack [controlled P Q a b] s s := by
  apply pullsBack_controlled h
  · simp [StateMap.controlledSign, ha]
  · simp [StateMap.controlledImage, ha, hb, StateMap.place]

end Action

/-! ## Check qubits that control Paulis -/

/-- A Pauli on a data qubit, controlled by a check qubit. -/
structure Coupling where
  /-- The check qubit. -/
  check : Nat
  /-- The data qubit. -/
  data : Nat
  /-- The Pauli. -/
  basis : Basis

namespace Coupling

/-- The operation of a coupling. -/
def action (c : Coupling) : Action := .controlled .z c.basis c.check c.data

/-- The Paulis that a check qubit controls, in order. -/
def factorsOf (check : Nat) (cs : List Coupling) : List (Nat × Basis) :=
  (cs.filter fun c => c.check == check).map fun c => (c.data, c.basis)

/-- No check qubit is a data qubit, and the Paulis on a data qubit are the same. -/
structure Compatible (cs : List Coupling) : Prop where
  apart : ∀ c ∈ cs, ∀ d ∈ cs, c.check ≠ d.data
  agree : ∀ c ∈ cs, ∀ d ∈ cs, c.data = d.data → c.basis = d.basis

variable {c : Coupling} {cs : List Coupling} {check : Nat}

theorem Compatible.of_cons (h : Compatible (c :: cs)) : Compatible cs where
  apart d hd e he := h.apart d (List.mem_cons_of_mem _ hd) e (List.mem_cons_of_mem _ he)
  agree d hd e he := h.agree d (List.mem_cons_of_mem _ hd) e (List.mem_cons_of_mem _ he)

theorem mem_factorsOf {factor : Nat × Basis} :
    factor ∈ factorsOf check cs ↔ ∃ c ∈ cs, c.check = check ∧ (c.data, c.basis) = factor := by
  simp [factorsOf, and_assoc]

theorem factorsOf_cons_of_eq (h : c.check = check) :
    factorsOf check (c :: cs) = (c.data, c.basis) :: factorsOf check cs := by
  simp [factorsOf, h]

theorem factorsOf_cons_of_ne (h : c.check ≠ check) :
    factorsOf check (c :: cs) = factorsOf check cs := by
  simp [factorsOf, h]

theorem notMem_factorsOf {q : Nat} (h : ∀ c ∈ cs, c.data ≠ q) :
    q ∉ (factorsOf check cs).map Prod.fst := by
  intro hq
  obtain ⟨factor, hfactor, rfl⟩ := List.mem_map.1 hq
  obtain ⟨c, hc, -, rfl⟩ := mem_factorsOf.1 hfactor
  exact h c hc rfl

/-- A coupling of the check qubit itself multiplies its Pauli in, on a qubit that is not in the
product yet. -/
theorem pullsBack_of_eq (hne : c.check ≠ c.data) (h : c.check = check)
    (hcheck : ∀ d ∈ cs, d.data ≠ check)
    (hnodup : ((factorsOf check (c :: cs)).map Prod.fst).Nodup) :
    Action.PullsBack [c.action] (stringOf ((check, .x) :: factorsOf check cs))
      (stringOf ((check, .x) :: factorsOf check (c :: cs))) := by
  subst h
  rw [factorsOf_cons_of_eq rfl] at hnodup ⊢
  rw [List.map_cons, List.nodup_cons] at hnodup
  have hfresh : c.check ∉ (factorsOf c.check cs).map Prod.fst := notMem_factorsOf hcheck
  have hfresh' : c.check ∉ ((c.data, c.basis) :: factorsOf c.check cs).map Prod.fst := by
    rw [List.map_cons, List.mem_cons, not_or]
    exact ⟨hne, hfresh⟩
  have hstring : stringOf ((c.check, .x) :: factorsOf c.check cs) =
      Function.update (stringOf (factorsOf c.check cs)) c.check (some .x) := stringOf_cons hfresh
  have hproduct : stringOf ((c.check, .x) :: (c.data, c.basis) :: factorsOf c.check cs) =
      Function.update (stringOf ((c.data, c.basis) :: factorsOf c.check cs)) c.check (some .x) :=
    stringOf_cons hfresh'
  rw [hproduct, stringOf_cons hnodup.1, Function.update_comm (Ne.symm hne), ← hstring]
  apply Action.pullsBack_controlled_of_x hne
  · rw [hstring, Function.update_self]
  · rw [hstring, Function.update_of_ne (Ne.symm hne), stringOf_of_notMem hnodup.1]

/-- A coupling of another check qubit keeps the product: its check qubit is not in it, and its
data qubit has the same Pauli or none. -/
theorem pullsBack_of_ne (hcs : Compatible (c :: cs)) (h : c.check ≠ check)
    (hcheck : ∀ d ∈ c :: cs, d.data ≠ check)
    (hnodup : ((factorsOf check cs).map Prod.fst).Nodup) :
    Action.PullsBack [c.action] (stringOf ((check, .x) :: factorsOf check cs))
      (stringOf ((check, .x) :: factorsOf check (c :: cs))) := by
  rw [factorsOf_cons_of_ne h]
  rw [List.forall_mem_cons] at hcheck
  have hstring : stringOf ((check, .x) :: factorsOf check cs) =
      Function.update (stringOf (factorsOf check cs)) check (some .x) :=
    stringOf_cons (notMem_factorsOf hcheck.2)
  have hother : c.check ∉ (factorsOf check cs).map Prod.fst := notMem_factorsOf fun d hd =>
    Ne.symm (hcs.apart c List.mem_cons_self d (List.mem_cons_of_mem _ hd))
  apply Action.pullsBack_controlled_of_commute
  · exact hcs.apart c List.mem_cons_self c List.mem_cons_self
  · rw [hstring, Function.update_of_ne h, stringOf_of_notMem hother]
    rfl
  · rw [hstring, Function.update_of_ne hcheck.1]
    cases hbasis : stringOf (factorsOf check cs) c.data with
    | none => rfl
    | some b =>
      obtain ⟨d, hd, -, hfactor⟩ := mem_factorsOf.1 (mem_of_stringOf_eq_some hnodup hbasis)
      rw [Prod.mk.injEq] at hfactor
      have hsame := hcs.agree d (List.mem_cons_of_mem _ hd) c List.mem_cons_self hfactor.1
      rw [← hfactor.2, hsame]
      exact bne_self_eq_false _

/-- Conjugated backwards through couplings in any order, X on a check qubit becomes its product
with the Paulis that it controls, if these are on different qubits. -/
theorem pullsBack_actions (hcs : Compatible cs) (hcheck : ∀ c ∈ cs, c.data ≠ check)
    (hnodup : ((factorsOf check cs).map Prod.fst).Nodup) :
    Action.PullsBack (cs.map action) (stringOf [(check, .x)])
      (stringOf ((check, .x) :: factorsOf check cs)) := by
  induction cs with
  | nil => exact Action.pullsBack_nil _
  | cons c cs ih =>
    have hrest : ∀ d ∈ cs, d.data ≠ check := (List.forall_mem_cons.1 hcheck).2
    have hsublist : (factorsOf check cs).Sublist (factorsOf check (c :: cs)) :=
      ((List.sublist_cons_self c cs).filter _).map _
    have hnodup' := hnodup.sublist (hsublist.map Prod.fst)
    have hstep : Action.PullsBack [c.action] (stringOf ((check, .x) :: factorsOf check cs))
        (stringOf ((check, .x) :: factorsOf check (c :: cs))) := by
      by_cases hown : c.check = check
      · exact pullsBack_of_eq (hcs.apart c List.mem_cons_self c List.mem_cons_self) hown hrest
          hnodup
      · exact pullsBack_of_ne hcs hown hcheck hnodup'
    exact (ih hcs.of_cons hrest hnodup').append hstep

end Coupling

end StabCircuit
