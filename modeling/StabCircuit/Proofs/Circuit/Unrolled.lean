import Mathlib.Data.List.Basic
import StabCircuit.Proofs.Circuit.Checked

/-!
# Unrolled circuits

What a circuit shows is read off instruction by instruction, with every repeat
block unrolled.  A reading that is additive under joins does not see how
appending merges instructions, so that appending to a circuit appends to what it
shows.
-/

namespace StabCircuit

namespace Circuit

variable {β : Type}

mutual

/-- What an operation shows, a repeat block as often as it runs. -/
def unrolledOperation (f : Instruction → List β) : Operation → List β
  | .instruction i => f i
  | .block count body => (List.replicate count (unrolled f body)).flatten

/-- What a circuit shows with its repeat blocks unrolled; `f` tells what an instruction shows. -/
def unrolled (f : Instruction → List β) : List Operation → List β
  | [] => []
  | op :: rest => unrolledOperation f op ++ unrolled f rest

end

theorem unrolled_append (f : Instruction → List β) (c d : List Operation) :
    unrolled f (c ++ d) = unrolled f c ++ unrolled f d := by
  induction c with
  | nil => rfl
  | cons op rest ih => simp only [List.cons_append, unrolled, ih, List.append_assoc]

theorem unrolled_singleton (f : Instruction → List β) (op : Operation) :
    unrolled f [op] = unrolledOperation f op := by
  simp [unrolled]

theorem unrolled_reverse_cons (f : Instruction → List β) (op : Operation)
    (done : List Operation) :
    unrolled f (op :: done).reverse = unrolled f done.reverse ++ unrolledOperation f op := by
  rw [List.reverse_cons, unrolled_append, unrolled_singleton]

mutual

/-- What a circuit shows is read off its instructions one after another. -/
theorem unrolled_eq_flatMap (f : Instruction → List β) : (ops : List Operation) →
    unrolled f ops = (unrolled (fun i => [i]) ops).flatMap f
  | [] => rfl
  | op :: rest => by
    rw [unrolled, unrolled, List.flatMap_append, unrolledOperation_eq_flatMap f op,
      unrolled_eq_flatMap f rest]

theorem unrolledOperation_eq_flatMap (f : Instruction → List β) : (op : Operation) →
    unrolledOperation f op = (unrolledOperation (fun i => [i]) op).flatMap f
  | .instruction i => (List.flatMap_singleton f i).symm
  | .block count body => by
    rw [unrolledOperation, unrolledOperation, unrolled_eq_flatMap f body]
    induction count with
    | zero => rfl
    | succ count ih =>
      rw [List.replicate_succ, List.replicate_succ, List.flatten_cons, List.flatten_cons,
        List.flatMap_append, ih]

end

/-! ## Properties of all instructions -/

/-- Every instruction of an operation, at any depth, has a property. -/
def Within (p : Instruction → Prop) (op : Operation) : Prop :=
  ∀ i ∈ operationInstructions op, p i

/-- Every instruction of a circuit, at any depth, has a property. -/
def Everywhere (p : Instruction → Prop) (c : List Operation) : Prop :=
  ∀ i ∈ instructions c, p i

instance (p : Instruction → Prop) [DecidablePred p] (c : List Operation) :
    Decidable (Everywhere p c) :=
  inferInstanceAs (Decidable (∀ i ∈ instructions c, p i))

theorem instructions_append (c d : List Operation) :
    instructions (c ++ d) = instructions c ++ instructions d := by
  induction c with
  | nil => rfl
  | cons op rest ih => simp only [List.cons_append, instructions, ih, List.append_assoc]

theorem everywhere_nil (p : Instruction → Prop) : Everywhere p [] := by
  intro i hi
  simp [instructions] at hi

theorem everywhere_append {p : Instruction → Prop} {c d : List Operation} :
    Everywhere p (c ++ d) ↔ Everywhere p c ∧ Everywhere p d := by
  simp only [Everywhere, instructions_append, List.mem_append]
  exact ⟨fun h => ⟨fun i hi => h i (.inl hi), fun i hi => h i (.inr hi)⟩,
    fun h i hi => hi.elim (h.1 i) (h.2 i)⟩

theorem everywhere_singleton {p : Instruction → Prop} {op : Operation} :
    Everywhere p [op] ↔ Within p op := by
  simp [Everywhere, Within, instructions]

theorem everywhere_cons {p : Instruction → Prop} {op : Operation} {c : List Operation} :
    Everywhere p (op :: c) ↔ Within p op ∧ Everywhere p c := by
  rw [← everywhere_singleton, ← everywhere_append, List.singleton_append]

@[simp] theorem within_instruction {p : Instruction → Prop} {i : Instruction} :
    Within p (.instruction i) ↔ p i := by
  simp [Within, operationInstructions]

@[simp] theorem within_block {p : Instruction → Prop} {count : Nat} {body : List Operation} :
    Within p (.block count body) ↔ Everywhere p body := by
  simp [Within, Everywhere, operationInstructions]

theorem everywhere_reverse {p : Instruction → Prop} {c : List Operation} :
    Everywhere p c.reverse ↔ Everywhere p c := by
  induction c with
  | nil => rfl
  | cons op rest ih =>
    rw [List.reverse_cons, everywhere_append, ih, everywhere_singleton, everywhere_cons, and_comm]

/-- An instruction of a block runs when the block does. -/
theorem mem_unrolledOperation_block {i : Instruction} {count : Nat} {body : List Operation} :
    i ∈ unrolledOperation (fun i => [i]) (.block count body) ↔
      count ≠ 0 ∧ i ∈ unrolled (fun i => [i]) body := by
  simp [unrolledOperation, List.mem_flatten, List.mem_replicate]

mutual

theorem mem_instructions_of_mem_unrolled {i : Instruction} : (ops : List Operation) →
    i ∈ unrolled (fun i => [i]) ops → i ∈ instructions ops
  | [], h => h
  | op :: rest, h => by
    rw [unrolled, List.mem_append] at h
    rw [instructions, List.mem_append]
    exact h.imp (mem_instructions_of_mem_unrolledOperation op)
      (mem_instructions_of_mem_unrolled rest)

theorem mem_instructions_of_mem_unrolledOperation {i : Instruction} : (op : Operation) →
    i ∈ unrolledOperation (fun i => [i]) op → i ∈ operationInstructions op
  | .instruction _, h => h
  | .block _ body, h =>
    mem_instructions_of_mem_unrolled body (mem_unrolledOperation_block.1 h).2

end

/-- What a circuit shows depends on what its instructions show. -/
theorem unrolled_congr {f g : Instruction → List β} {c : List Operation}
    (h : Everywhere (fun i => f i = g i) c) : unrolled f c = unrolled g c := by
  rw [unrolled_eq_flatMap f, unrolled_eq_flatMap g]
  apply List.flatMap_congr
  intro i hi
  exact h i (mem_instructions_of_mem_unrolled c hi)

theorem Everywhere.mono {p q : Instruction → Prop} {c : List Operation}
    (h : Everywhere p c) (hpq : ∀ i, p i → q i) : Everywhere q c :=
  fun i hi => hpq i (h i hi)

/-- A property of checked instructions that joins keep. -/
structure Joinable (p : Instruction → Prop) : Prop where
  /-- The property is one of checked instructions. -/
  checked : ∀ i, p i → i.IsChecked
  /-- Instructions that merge keep the property. -/
  join : ∀ last next, p last → p next → fuses last next = true → p (last.join next)

theorem joinable_isChecked : Joinable Instruction.IsChecked where
  checked _ h := h
  join _ _ hlast hnext h := hlast.join hnext h

theorem everywhere_pushReversed {p : Instruction → Prop} (hp : Joinable p)
    {done : List Operation} {i : Instruction} (hdone : Everywhere p done) (hi : p i) :
    Everywhere p (pushReversed done i) := by
  unfold pushReversed
  split
  · next last rest =>
    rw [everywhere_cons, within_instruction] at hdone
    split
    · next hfuses =>
      rw [everywhere_cons, within_instruction]
      exact ⟨hp.join last i hdone.1 hi hfuses, hdone.2⟩
    · rw [everywhere_cons, everywhere_cons, within_instruction, within_instruction]
      exact ⟨hi, hdone⟩
  · rw [everywhere_cons, within_instruction]
    exact ⟨hi, hdone⟩

theorem everywhere_foldl_pushReversed {p : Instruction → Prop} (hp : Joinable p)
    {is : List Instruction} {done : List Operation} (hdone : Everywhere p done)
    (his : ∀ i ∈ is, p i) : Everywhere p (is.foldl pushReversed done) := by
  induction is generalizing done with
  | nil => exact hdone
  | cons i is ih =>
    exact ih (everywhere_pushReversed hp hdone (his i (by simp)))
      fun j hj => his j (List.mem_cons_of_mem _ hj)

/-! ## Readings that do not see joins -/

/-- What an instruction shows is read piece by piece, so that joins do not matter. -/
def Additive (f : Instruction → List β) : Prop :=
  ∀ last next : Instruction, last.IsChecked → next.IsChecked → fuses last next = true →
    f (last.join next) = f last ++ f next

/-- A relation that can be shown part by part. -/
structure Compositional (R : List β → List β → Prop) : Prop where
  refl : ∀ xs, R xs xs
  trans : ∀ {xs ys zs}, R xs ys → R ys zs → R xs zs
  append : ∀ {xs ys us vs}, R xs ys → R us vs → R (xs ++ us) (ys ++ vs)

/-- What a join shows is related to what its parts show one after another. -/
def Related (R : List β → List β → Prop) (f : Instruction → List β) : Prop :=
  ∀ last next : Instruction, last.IsChecked → next.IsChecked → fuses last next = true →
    R (f (last.join next)) (f last ++ f next)

theorem compositional_eq : Compositional (@Eq (List β)) where
  refl _ := rfl
  trans := Eq.trans
  append hxs hus := by rw [hxs, hus]

variable {R : List β → List β → Prop}

theorem related_pushReversed (hR : Compositional R) {f : Instruction → List β} (hf : Related R f)
    {done : List Operation} {i : Instruction} (hdone : Everywhere Instruction.IsChecked done)
    (hi : i.IsChecked) :
    R (unrolled f (pushReversed done i).reverse) (unrolled f done.reverse ++ f i) := by
  unfold pushReversed
  split
  · next last rest =>
    rw [everywhere_cons, within_instruction] at hdone
    split
    · next hfuses =>
      have hjoin := hf last i hdone.1 hi hfuses
      simp only [Instruction.join] at hjoin
      rw [unrolled_reverse_cons, unrolled_reverse_cons, unrolledOperation, unrolledOperation,
        List.append_assoc]
      exact hR.append (hR.refl _) hjoin
    · rw [unrolled_reverse_cons, unrolledOperation]
      exact hR.refl _
  · rw [unrolled_reverse_cons, unrolledOperation]
    exact hR.refl _

theorem related_foldl_pushReversed (hR : Compositional R) {f : Instruction → List β}
    (hf : Related R f) {is : List Instruction} {done : List Operation}
    (hdone : Everywhere Instruction.IsChecked done) (his : ∀ i ∈ is, i.IsChecked) :
    R (unrolled f (is.foldl pushReversed done).reverse)
      (unrolled f done.reverse ++ is.flatMap f) := by
  induction is generalizing done with
  | nil =>
    rw [List.flatMap_nil, List.append_nil]
    exact hR.refl _
  | cons i is ih =>
    rw [List.forall_mem_cons] at his
    have hpush := related_pushReversed hR hf hdone his.1
    have hrest := ih (everywhere_pushReversed joinable_isChecked hdone his.1) his.2
    rw [List.foldl_cons, List.flatMap_cons, ← List.append_assoc]
    exact hR.trans hrest (hR.append hpush (hR.refl _))

theorem unrolled_pushReversed {f : Instruction → List β} (hf : Additive f)
    {done : List Operation} {i : Instruction} (hdone : Everywhere Instruction.IsChecked done)
    (hi : i.IsChecked) :
    unrolled f (pushReversed done i).reverse = unrolled f done.reverse ++ f i :=
  related_pushReversed compositional_eq hf hdone hi

theorem unrolled_foldl_pushReversed {f : Instruction → List β} (hf : Additive f)
    {is : List Instruction} {done : List Operation}
    (hdone : Everywhere Instruction.IsChecked done) (his : ∀ i ∈ is, i.IsChecked) :
    unrolled f (is.foldl pushReversed done).reverse = unrolled f done.reverse ++ is.flatMap f :=
  related_foldl_pushReversed compositional_eq hf hdone his

mutual

theorem everywhere_addReversed {p : Instruction → Prop} (hp : Joinable p)
    {done : List Operation} (hdone : Everywhere p done) :
    (op : Operation) → Within p op → Everywhere p (addReversed done op)
  | .instruction i, hop => by
    rw [addReversed]
    exact everywhere_pushReversed hp hdone (within_instruction.1 hop)
  | .block 0 body, _ => by
    rw [addReversed]
    exact hdone
  | .block 1 body, hop => by
    rw [addReversed]
    exact everywhere_addAllReversed hp hdone body (within_block.1 hop)
  | .block (n + 2) body, hop => by
    rw [addReversed, everywhere_cons]
    exact ⟨hop, hdone⟩

theorem everywhere_addAllReversed {p : Instruction → Prop} (hp : Joinable p)
    {done : List Operation} (hdone : Everywhere p done) :
    (ops : List Operation) → Everywhere p ops → Everywhere p (addAllReversed done ops)
  | [], _ => by
    rw [addAllReversed]
    exact hdone
  | op :: rest, hops => by
    rw [addAllReversed]
    rw [everywhere_cons] at hops
    exact everywhere_addAllReversed hp (everywhere_addReversed hp hdone op hops.1) rest hops.2

end

mutual

theorem related_addReversed (hR : Compositional R) {f : Instruction → List β} (hf : Related R f)
    {done : List Operation} (hdone : Everywhere Instruction.IsChecked done) :
    (op : Operation) → Within Instruction.IsChecked op →
      R (unrolled f (addReversed done op).reverse)
        (unrolled f done.reverse ++ unrolledOperation f op)
  | .instruction i, hop => by
    rw [addReversed, unrolledOperation]
    exact related_pushReversed hR hf hdone (within_instruction.1 hop)
  | .block 0 body, _ => by
    rw [addReversed, unrolledOperation, List.replicate_zero, List.flatten_nil, List.append_nil]
    exact hR.refl _
  | .block 1 body, hop => by
    rw [addReversed, unrolledOperation]
    simpa using related_addAllReversed hR hf hdone body (within_block.1 hop)
  | .block (n + 2) body, _ => by
    rw [addReversed, unrolled_reverse_cons]
    exact hR.refl _

theorem related_addAllReversed (hR : Compositional R) {f : Instruction → List β}
    (hf : Related R f) {done : List Operation} (hdone : Everywhere Instruction.IsChecked done) :
    (ops : List Operation) → Everywhere Instruction.IsChecked ops →
      R (unrolled f (addAllReversed done ops).reverse) (unrolled f done.reverse ++ unrolled f ops)
  | [], _ => by
    rw [addAllReversed, unrolled, List.append_nil]
    exact hR.refl _
  | op :: rest, hops => by
    rw [everywhere_cons] at hops
    have hop := related_addReversed hR hf hdone op hops.1
    have hrest := related_addAllReversed hR hf
      (everywhere_addReversed joinable_isChecked hdone op hops.1) rest hops.2
    rw [addAllReversed, unrolled, ← List.append_assoc]
    exact hR.trans hrest (hR.append hop (hR.refl _))

end

/-- Appending an operation appends to what the circuit shows. -/
theorem unrolled_addReversed {f : Instruction → List β} (hf : Additive f)
    {done : List Operation} (hdone : Everywhere Instruction.IsChecked done) (op : Operation)
    (hop : Within Instruction.IsChecked op) :
    unrolled f (addReversed done op).reverse = unrolled f done.reverse ++ unrolledOperation f op :=
  related_addReversed compositional_eq hf hdone op hop

/-! ## Circuits built by appending -/

/-- Circuits that come about by appending made instructions and repeated bodies. -/
inductive Built : Circuit → Prop
  /-- The circuit without operations. -/
  | nil : Built []
  /-- A made instruction is appended. -/
  | push {c : Circuit} {name : String} {targets : List Target} {args : List Scalar}
      {i : Instruction} (hc : Built c) (hi : Instruction.make name targets args = .ok i) :
      Built (c.push i)
  /-- A body is appended, to run a number of times. -/
  | pushRepeat {c body : Circuit} (hc : Built c) (hbody : Built body) (count : Nat) :
      Built (c.pushRepeat count body)

theorem everywhere_push {p : Instruction → Prop} (hp : Joinable p) {c : Circuit}
    {i : Instruction} (hc : Everywhere p c) (hi : p i) : Everywhere p (c.push i) := by
  rw [push, everywhere_reverse]
  exact everywhere_pushReversed hp (everywhere_reverse.2 hc) hi

theorem everywhere_pushOperation {p : Instruction → Prop} (hp : Joinable p) {c : Circuit}
    {op : Operation} (hc : Everywhere p c) (hop : Within p op) :
    Everywhere p (c.pushOperation op) := by
  rw [pushOperation, everywhere_reverse]
  exact everywhere_addReversed hp (everywhere_reverse.2 hc) op hop

theorem unrolled_push {f : Instruction → List β} (hf : Additive f) {c : Circuit}
    {i : Instruction} (hc : Everywhere Instruction.IsChecked c) (hi : i.IsChecked) :
    unrolled f (c.push i) = unrolled f c ++ f i := by
  rw [push, unrolled_pushReversed hf (everywhere_reverse.2 hc) hi, List.reverse_reverse]

theorem unrolled_pushOperation {f : Instruction → List β} (hf : Additive f) {c : Circuit}
    {op : Operation} (hc : Everywhere Instruction.IsChecked c)
    (hop : Within Instruction.IsChecked op) :
    unrolled f (c.pushOperation op) = unrolled f c ++ unrolledOperation f op := by
  rw [pushOperation, unrolled_addReversed hf (everywhere_reverse.2 hc) op hop,
    List.reverse_reverse]

/-- Every instruction of a built circuit is checked. -/
theorem Built.checked {c : Circuit} (h : Built c) : Everywhere Instruction.IsChecked c := by
  induction h with
  | nil => exact everywhere_nil _
  | push hc hi ih => exact everywhere_push joinable_isChecked ih (.of_make hi)
  | pushRepeat hc hbody count ih ihbody =>
    exact everywhere_pushOperation joinable_isChecked ih (within_block.2 ihbody)

theorem Built.foldl_push {c : Circuit} (hc : Built c) {is : List Instruction}
    (his : ∀ i ∈ is, i.IsChecked) : Built (is.foldl Circuit.push c) := by
  induction is generalizing c with
  | nil => exact hc
  | cons i is ih =>
    rw [List.forall_mem_cons] at his
    exact ih (.push hc his.1) his.2

end Circuit

end StabCircuit
