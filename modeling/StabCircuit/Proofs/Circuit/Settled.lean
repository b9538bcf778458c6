import StabCircuit.Proofs.Circuit.Unrolled

/-!
# Settled circuits

A circuit is settled when no two neighbours merge and every block runs at least
twice, at every depth.  Appending keeps circuits settled, and appending the
operations of a settled circuit one after another gives it back.  So the circuits
built by appending are exactly the settled ones whose instructions are checked.
-/

namespace StabCircuit

/-! ## Numeric equality -/

namespace Scalar

theorem numEq_refl {x : Scalar} (h : x.isNaN = false) : x.numEq x = true := by
  simp [numEq, h]

theorem numEq_trans {x y z : Scalar} (hxy : x.numEq y = true) (hyz : y.numEq z = true) :
    x.numEq z = true := by
  simp only [numEq, Bool.and_eq_true, Bool.not_eq_true', beq_iff_eq] at hxy hyz ⊢
  exact ⟨⟨hxy.1.1, hyz.1.2⟩, hxy.2.trans hyz.2⟩

theorem listNumEq_refl {xs : List Scalar} (h : ∀ x ∈ xs, x.isNaN = false) :
    listNumEq xs xs = true := by
  induction xs with
  | nil => rfl
  | cons x xs ih =>
    rw [List.forall_mem_cons] at h
    simp [listNumEq, numEq_refl h.1, ih h.2]

theorem listNumEq_trans {xs ys zs : List Scalar} (hxy : listNumEq xs ys = true)
    (hyz : listNumEq ys zs = true) : listNumEq xs zs = true := by
  induction xs generalizing ys zs with
  | nil =>
    cases ys with
    | nil => exact hyz
    | cons y ys => simp [listNumEq] at hxy
  | cons x xs ih =>
    cases ys with
    | nil => simp [listNumEq] at hxy
    | cons y ys =>
      cases zs with
      | nil => simp [listNumEq] at hyz
      | cons z zs =>
        simp only [listNumEq, Bool.and_eq_true] at hxy hyz ⊢
        exact ⟨numEq_trans hxy.1 hyz.1, ih hxy.2 hyz.2⟩

end Scalar

namespace Circuit

/-! ## Merging -/

theorem name_eq_of_fuses {last next : Instruction} (h : fuses last next = true) :
    last.name = next.name := by
  simp only [fuses, Bool.and_eq_true, beq_iff_eq] at h
  exact h.1.2

theorem kind_eq_of_fuses {last next : Instruction} (h : fuses last next = true) :
    last.kind = next.kind := by
  simp only [Instruction.kind, Instruction.gate?, name_eq_of_fuses h]

theorem fuses_trans {a b c : Instruction} (hab : fuses a b = true) (hbc : fuses b c = true) :
    fuses a c = true := by
  simp only [fuses, Bool.and_eq_true, beq_iff_eq] at hab hbc ⊢
  exact ⟨⟨hbc.1.1, hab.1.2.trans hbc.1.2⟩, Scalar.listNumEq_trans hab.2 hbc.2⟩

theorem fuses_tick (last : Instruction) : fuses last .tick = false := by
  have hgate : Instruction.tick.gate? = some .tick := Instruction.gate?_of_name rfl
  simp [fuses, hgate, Gate.isFusable, Gate.kind]

/-- Appending an instruction merges it into the last one, or leaves that alone. -/
theorem pushReversed_cases (done : List Operation) (i : Instruction) :
    (∃ last rest, done = .instruction last :: rest ∧ fuses last i = true ∧
      pushReversed done i = .instruction (last.join i) :: rest) ∨
    ((∀ last rest, done = .instruction last :: rest → fuses last i = false) ∧
      pushReversed done i = .instruction i :: done) := by
  unfold pushReversed
  split
  · next last rest =>
    split
    · next h => exact .inl ⟨last, rest, rfl, h, rfl⟩
    · next h =>
      refine .inr ⟨?_, rfl⟩
      rintro _ _ ⟨rfl, rfl⟩
      simpa using h
  · next hother =>
    refine .inr ⟨?_, rfl⟩
    intro last rest hdone
    exact absurd hdone (hother last rest)

theorem pushReversed_of_fuses {last i : Instruction} (h : fuses last i = true)
    (rest : List Operation) :
    pushReversed (.instruction last :: rest) i = .instruction (last.join i) :: rest := by
  simp [pushReversed, h, Instruction.join]

theorem pushReversed_of_not_fuses {done : List Operation} {i : Instruction}
    (h : ∀ last rest, done = .instruction last :: rest → fuses last i = false) :
    pushReversed done i = .instruction i :: done := by
  obtain ⟨last, rest, hdone, hfuses, -⟩ | ⟨-, hpush⟩ := pushReversed_cases done i
  · rw [h last rest hdone] at hfuses
    cases hfuses
  · exact hpush

/-- Two instructions that merge are appended as their join. -/
theorem pushReversed_pushReversed {a b : Instruction} (h : fuses a b = true)
    (done : List Operation) :
    pushReversed (pushReversed done a) b = pushReversed done (a.join b) := by
  obtain ⟨last, rest, rfl, hlast, hpush⟩ | ⟨hnone, hpush⟩ := pushReversed_cases done a
  · have hb : fuses (last.join a) b = true := fuses_trans hlast h
    have hjoin : fuses last (a.join b) = true := hlast
    rw [hpush, pushReversed_of_fuses hb, pushReversed_of_fuses hjoin]
    simp [Instruction.join]
  · have hjoin : ∀ last rest, done = .instruction last :: rest → fuses last (a.join b) = false :=
      hnone
    rw [hpush, pushReversed_of_fuses h, pushReversed_of_not_fuses hjoin]

/-! ## Settled circuits -/

/-- Neighbouring operations that do not merge. -/
def Apart : Operation → Operation → Prop
  | .instruction last, .instruction next => fuses last next = false
  | _, _ => True

instance : (a b : Operation) → Decidable (Apart a b)
  | .instruction last, .instruction next => inferInstanceAs (Decidable (fuses last next = false))
  | .instruction _, .block _ _ => .isTrue trivial
  | .block _ _, .instruction _ => .isTrue trivial
  | .block _ _, .block _ _ => .isTrue trivial

mutual

/-- No neighbours merge and blocks run at least twice, at every depth. -/
def Settled : List Operation → Prop
  | [] => True
  | op :: rest => SettledOperation op ∧ (∀ next ∈ rest.head?, Apart op next) ∧ Settled rest

/-- A block runs at least twice and its body is settled. -/
def SettledOperation : Operation → Prop
  | .instruction _ => True
  | .block count body => 2 ≤ count ∧ Settled body

end

mutual

/-- Every instruction of a settled circuit runs. -/
theorem mem_unrolled_of_settled {i : Instruction} : (ops : List Operation) → Settled ops →
    i ∈ instructions ops → i ∈ unrolled (fun i => [i]) ops
  | [], _, h => h
  | op :: rest, hops, h => by
    rw [instructions, List.mem_append] at h
    rw [unrolled, List.mem_append]
    exact h.imp (mem_unrolledOperation_of_settled op hops.1) (mem_unrolled_of_settled rest hops.2.2)

theorem mem_unrolledOperation_of_settled {i : Instruction} : (op : Operation) →
    SettledOperation op → i ∈ operationInstructions op →
    i ∈ unrolledOperation (fun i => [i]) op
  | .instruction _, _, h => h
  | .block count body, hop, h => by
    have hcount : count ≠ 0 := by
      have := hop.1
      omega
    exact mem_unrolledOperation_block.2 ⟨hcount, mem_unrolled_of_settled body hop.2 h⟩

end

theorem settled_append {c d : List Operation} :
    Settled (c ++ d) ↔
      Settled c ∧ Settled d ∧ ∀ last ∈ c.getLast?, ∀ next ∈ d.head?, Apart last next := by
  induction c with
  | nil => simp [Settled]
  | cons op rest ih =>
    cases rest with
    | nil => simp [Settled, and_comm]
    | cons op' rest =>
      have hlast : (op :: op' :: rest).getLast? = (op' :: rest).getLast? :=
        List.getLast?_cons_cons
      have hhead : ((op' :: rest) ++ d).head? = (op' :: rest).head? := rfl
      rw [List.cons_append, Settled, ih, hlast, hhead, Settled.eq_2 op]
      simp only [and_assoc]

theorem settled_reverse_cons {op : Operation} {done : List Operation} :
    Settled (op :: done).reverse ↔
      Settled done.reverse ∧ SettledOperation op ∧ ∀ last ∈ done.head?, Apart last op := by
  rw [List.reverse_cons, settled_append, List.getLast?_reverse]
  simp [Settled]

theorem settled_pushReversed {done : List Operation} (hdone : Settled done.reverse)
    (i : Instruction) : Settled (pushReversed done i).reverse := by
  obtain ⟨last, rest, rfl, -, hpush⟩ | ⟨hnone, hpush⟩ := pushReversed_cases done i
  · rw [settled_reverse_cons] at hdone
    rw [hpush, settled_reverse_cons]
    refine ⟨hdone.1, trivial, ?_⟩
    intro before hbefore
    have hapart := hdone.2.2 before hbefore
    cases before with
    | instruction b => exact hapart
    | block count body => trivial
  · rw [hpush, settled_reverse_cons]
    refine ⟨hdone, trivial, ?_⟩
    intro last hlast
    cases last with
    | instruction last =>
      obtain ⟨rest, rfl⟩ := List.head?_eq_some_iff.1 hlast
      exact hnone last rest rfl
    | block count body => trivial

theorem addReversed_block {count : Nat} (h : 2 ≤ count) (done body : List Operation) :
    addReversed done (.block count body) = .block count body :: done := by
  obtain ⟨n, rfl⟩ := Nat.exists_eq_add_of_le' h
  rw [addReversed]

theorem settled_addReversed {done : List Operation} (hdone : Settled done.reverse)
    {op : Operation} (hop : SettledOperation op) : Settled (addReversed done op).reverse := by
  cases op with
  | instruction i =>
    rw [addReversed]
    exact settled_pushReversed hdone i
  | block count body =>
    rw [addReversed_block hop.1, settled_reverse_cons]
    refine ⟨hdone, hop, ?_⟩
    intro last _
    cases last <;> trivial

theorem settled_addAllReversed {ops done : List Operation} (hdone : Settled done.reverse)
    (hops : Settled ops) : Settled (addAllReversed done ops).reverse := by
  induction ops generalizing done with
  | nil =>
    rw [addAllReversed]
    exact hdone
  | cons op rest ih =>
    rw [addAllReversed]
    rw [Settled] at hops
    exact ih (settled_addReversed hdone hops.1) hops.2.2

/-- Appending the operations of a settled circuit gives them back. -/
theorem addAllReversed_of_settled {ops done : List Operation}
    (h : Settled (done.reverse ++ ops)) : addAllReversed done ops = ops.reverse ++ done := by
  induction ops generalizing done with
  | nil => rfl
  | cons op rest ih =>
    have hadd : addReversed done op = op :: done := by
      rw [settled_append, Settled, List.getLast?_reverse] at h
      obtain ⟨-, ⟨hop, -⟩, hapart⟩ := h
      cases op with
      | instruction i =>
        rw [addReversed]
        apply pushReversed_of_not_fuses
        intro last rest hdone
        exact hapart (.instruction last) (by simp [hdone]) (.instruction i) rfl
      | block count body => exact addReversed_block hop.1 done body
    have hnext : Settled ((op :: done).reverse ++ rest) := by
      rwa [List.reverse_cons, List.append_assoc, List.singleton_append]
    rw [addAllReversed, hadd, ih hnext, List.reverse_cons, List.append_assoc,
      List.singleton_append]

theorem addAllReversed_nil_of_settled {c : List Operation} (h : Settled c) :
    addAllReversed [] c = c.reverse := by
  rw [@addAllReversed_of_settled c [] (by simpa using h), List.append_nil]

/-! ## Built circuits -/

theorem Built.settled {c : Circuit} (h : Built c) : Settled c := by
  induction h with
  | nil => exact trivial
  | @push c _ _ _ i _ _ ih =>
    rw [Circuit.push]
    apply settled_pushReversed
    rwa [List.reverse_reverse]
  | @pushRepeat c body _ _ count ih ihbody =>
    rw [Circuit.pushRepeat, pushOperation]
    rcases count with _ | _ | n
    · rw [addReversed, List.reverse_reverse]
      exact ih
    · rw [addReversed]
      apply settled_addAllReversed _ ihbody
      rwa [List.reverse_reverse]
    · apply settled_addReversed
      · rwa [List.reverse_reverse]
      · exact ⟨by omega, ihbody⟩

mutual

/-- A settled circuit of checked instructions is built by appending. -/
theorem built_addAllReversed : (ops : List Operation) → Everywhere Instruction.IsChecked ops →
    Settled ops → {done : List Operation} → Built done.reverse →
      Built (addAllReversed done ops).reverse
  | [], _, _, done, hdone => by
    rw [addAllReversed]
    exact hdone
  | op :: rest, hchecked, hsettled, done, hdone => by
    rw [everywhere_cons] at hchecked
    rw [Settled] at hsettled
    rw [addAllReversed]
    exact built_addAllReversed rest hchecked.2 hsettled.2.2
      (built_addReversed op hchecked.1 hsettled.1 hdone)

theorem built_addReversed : (op : Operation) → Within Instruction.IsChecked op →
    SettledOperation op → {done : List Operation} → Built done.reverse →
      Built (addReversed done op).reverse
  | .instruction i, hchecked, _, done, hdone => by
    have hpush := Built.push hdone (within_instruction.1 hchecked)
    rwa [push, List.reverse_reverse] at hpush
  | .block count body, hchecked, hsettled, done, hdone => by
    rw [within_block] at hchecked
    rw [SettledOperation] at hsettled
    have hbody := @built_addAllReversed body hchecked hsettled.2 [] .nil
    rw [addAllReversed_nil_of_settled hsettled.2, List.reverse_reverse] at hbody
    have hpush := Built.pushRepeat hdone hbody count
    rwa [pushRepeat, pushOperation, List.reverse_reverse] at hpush

end

/-- The circuits built by appending are the settled ones whose instructions are checked. -/
theorem built_iff {c : Circuit} :
    Built c ↔ Everywhere Instruction.IsChecked c ∧ Settled c := by
  constructor
  · intro h
    exact ⟨h.checked, h.settled⟩
  · rintro ⟨hchecked, hsettled⟩
    have hbuilt := @built_addAllReversed c hchecked hsettled [] .nil
    rwa [addAllReversed_nil_of_settled hsettled, List.reverse_reverse] at hbuilt

end Circuit

end StabCircuit
