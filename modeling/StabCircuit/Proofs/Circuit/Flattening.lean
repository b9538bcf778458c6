import StabCircuit.Proofs.Circuit.Concatenation

/-!
# Flattened circuits

Flattening appends the instructions of a circuit one after another, each as often as
it runs.  The result holds no block and is settled, so that flattening it again gives
it back, and whatever is read off instructions up to joins is the same for a circuit
with its blocks and without.
-/

namespace StabCircuit

namespace Circuit

/-! ## Instructions one after another -/

/-- Instructions that were appended to operations follow them when they are appended. -/
theorem addAllReversed_foldl_pushReversed (base done : List Operation) (is : List Instruction) :
    addAllReversed base (is.foldl pushReversed done).reverse =
      is.foldl pushReversed (addAllReversed base done.reverse) := by
  induction is generalizing done with
  | nil => rfl
  | cons i is ih => rw [List.foldl_cons, List.foldl_cons, ih, addAllReversed_pushReversed]

/-- Operations that append the same instructions, as often as they run, append them all. -/
theorem repeat_foldl_pushReversed (is : List Instruction) (count : Nat) (done : List Operation) :
    Nat.repeat (fun ops => is.foldl pushReversed ops) count done =
      (List.replicate count is).flatten.foldl pushReversed done := by
  induction count with
  | zero => rfl
  | succ count ih =>
    rw [Nat.repeat, ih, List.replicate_succ', List.flatten_append, List.flatten_singleton,
      List.foldl_append]

mutual

theorem flattenReversed_eq_foldl (done : List Operation) : (ops : List Operation) →
    flattenReversed done ops = (unrolled (fun i => [i]) ops).foldl pushReversed done
  | [] => by rw [flattenReversed, unrolled, List.foldl_nil]
  | op :: rest => by
    rw [flattenReversed, unrolled, List.foldl_append, ← flattenOperation_eq_foldl done op,
      flattenReversed_eq_foldl _ rest]

theorem flattenOperation_eq_foldl (done : List Operation) : (op : Operation) →
    flattenOperation done op = (unrolledOperation (fun i => [i]) op).foldl pushReversed done
  | .instruction i => by
    rw [flattenOperation, unrolledOperation, List.foldl_cons, List.foldl_nil]
  | .block count body => by
    have hbody : (fun ops => addAllReversed ops (flattenReversed [] body).reverse) =
        fun ops => (unrolled (fun i => [i]) body).foldl pushReversed ops := by
      funext ops
      rw [flattenReversed_eq_foldl [] body, addAllReversed_foldl_pushReversed, List.reverse_nil,
        addAllReversed]
    rw [flattenOperation, hbody, unrolledOperation, repeat_foldl_pushReversed]

end

/-- Flattening appends every instruction of a circuit as often as it runs. -/
theorem flattened_eq_foldl (c : Circuit) :
    c.flattened = ((unrolled (fun i => [i]) c).foldl pushReversed []).reverse := by
  rw [flattened, flattenReversed_eq_foldl]

theorem isChecked_of_mem_unrolled {c : Circuit} (hc : Everywhere Instruction.IsChecked c) :
    ∀ i ∈ unrolled (fun i => [i]) c, i.IsChecked :=
  fun i hi => hc i (mem_instructions_of_mem_unrolled c hi)

/-- What joins relate, flattening relates. -/
theorem related_flattened {β : Type} {R : List β → List β → Prop} (hR : Compositional R)
    {f : Instruction → List β} (hf : Related R f) {c : Circuit}
    (hc : Everywhere Instruction.IsChecked c) : R (unrolled f c.flattened) (unrolled f c) := by
  have hread := related_foldl_pushReversed hR hf (everywhere_nil _) (isChecked_of_mem_unrolled hc)
  rw [flattened_eq_foldl, unrolled_eq_flatMap f c]
  exact hread

theorem unrolled_flattened {β : Type} {f : Instruction → List β} (hf : Additive f) {c : Circuit}
    (hc : Everywhere Instruction.IsChecked c) : unrolled f c.flattened = unrolled f c :=
  related_flattened compositional_eq hf hc

/-! ## Circuits without blocks -/

/-- No operation is a block. -/
def IsFlat (c : List Operation) : Prop := ∀ op ∈ c, ∃ i, op = .instruction i

theorem isFlat_pushReversed {done : List Operation} (h : IsFlat done) (i : Instruction) :
    IsFlat (pushReversed done i) := by
  obtain ⟨last, rest, rfl, -, hpush⟩ | ⟨-, hpush⟩ := pushReversed_cases done i
  · rw [hpush]
    exact List.forall_mem_cons.2 ⟨⟨_, rfl⟩, (List.forall_mem_cons.1 h).2⟩
  · rw [hpush]
    exact List.forall_mem_cons.2 ⟨⟨i, rfl⟩, h⟩

theorem settled_foldl_pushReversed (is : List Instruction) {done : List Operation}
    (h : Settled done.reverse) : Settled (is.foldl pushReversed done).reverse := by
  induction is generalizing done with
  | nil => exact h
  | cons i is ih => exact ih (settled_pushReversed h i)

theorem isFlat_foldl_pushReversed (is : List Instruction) {done : List Operation}
    (h : IsFlat done) : IsFlat (is.foldl pushReversed done) := by
  induction is generalizing done with
  | nil => exact h
  | cons i is ih => exact ih (isFlat_pushReversed h i)

theorem settled_flattened (c : Circuit) : Settled c.flattened := by
  have hnil : Settled ([] : List Operation).reverse := by
    rw [List.reverse_nil]
    trivial
  rw [flattened_eq_foldl]
  exact settled_foldl_pushReversed _ hnil

theorem isFlat_flattened (c : Circuit) : IsFlat c.flattened := by
  have hnil : IsFlat [] := fun op hop => by cases hop
  rw [flattened_eq_foldl]
  intro op hop
  exact isFlat_foldl_pushReversed _ hnil op (List.mem_reverse.1 hop)

/-- Without blocks there is nothing to unroll. -/
theorem flattenReversed_of_isFlat {ops : List Operation} (h : IsFlat ops) (done : List Operation) :
    flattenReversed done ops = addAllReversed done ops := by
  induction ops generalizing done with
  | nil => rw [flattenReversed, addAllReversed]
  | cons op rest ih =>
    obtain ⟨⟨i, rfl⟩, hrest⟩ := List.forall_mem_cons.1 h
    rw [flattenReversed, flattenOperation, addAllReversed, addReversed, ih hrest]

theorem flattened_of_settled {c : Circuit} (hsettled : Settled c) (hflat : IsFlat c) :
    c.flattened = c := by
  rw [flattened, flattenReversed_of_isFlat hflat, addAllReversed_nil_of_settled hsettled,
    List.reverse_reverse]

end Circuit

end StabCircuit
