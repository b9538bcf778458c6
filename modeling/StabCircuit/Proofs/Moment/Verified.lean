import StabCircuit.Proofs.Moment.Reuse
import StabCircuit.Proofs.Support.Results

/-!
# What verification reports

The walk over a circuit is a run over its unrolled instructions.  It keeps the
uses of the open moment, so it reports reuse exactly when the marks of the
unrolled circuit have one, unless a record target stops it before.
-/

namespace StabCircuit

/-- A check fails because a moment uses a qubit twice. -/
def ReportsReuse {α : Type} (x : Except CompileError α) : Prop :=
  ∃ q gate, x = .error (.qubitReused q gate)

instance {α : Type} : (x : Except CompileError α) → Decidable (ReportsReuse x)
  | .error (.qubitReused q gate) => .isTrue ⟨q, gate, rfl⟩
  | .ok _ | .error (.circuit _) | .error (.noNoiseRule _) | .error (.invalidConfiguration _)
  | .error (.overlappingLayer _ _) | .error (.unsupportedInstruction _)
  | .error (.lookback _ _ _) => .isFalse fun ⟨_, _, h⟩ => nomatch h

/-- How a check ends: with success only where there is no reuse, and then with a result as
expected; with a report of reuse only where there is one; with another error only where some
condition fails. -/
structure Verdict {α : Type} (free reach : Prop) (post : α → Prop) (x : Except CompileError α) :
    Prop where
  ok : ∀ a, x = .ok a → free ∧ post a
  reused : ReportsReuse x → ¬ free
  other : ∀ e, x = .error e → ReportsReuse x ∨ ¬ reach

namespace Verdict

variable {α β : Type} {P Q R S : Prop} {post : α → Prop} {post' : β → Prop}
  {x : Except CompileError α}

theorem of_ok {a : α} (h : P) (hpost : post a) : Verdict P R post (.ok a) where
  ok b hb := by
    cases hb
    exact ⟨h, hpost⟩
  reused := by
    rintro ⟨_, _, h⟩
    cases h
  other _ h := by cases h

theorem congr (h : Verdict P R post x) (hP : P ↔ Q) (hR : S → R) : Verdict Q S post x where
  ok a ha := (h.ok a ha).imp_left hP.1
  reused hx hQ := h.reused hx (hP.2 hQ)
  other e he := (h.other e he).imp_right fun hreach hS => hreach (hR hS)

theorem bind {f : α → Except CompileError β} (hx : Verdict P R post x)
    (hf : ∀ a, P → post a → Verdict Q S post' (f a)) :
    Verdict (P ∧ Q) (R ∧ S) post' (x >>= f) := by
  cases x with
  | error e =>
    refine ⟨fun b hb => (by cases hb), ?_, ?_⟩
    · rintro ⟨q, gate, heq⟩ hboth
      cases heq
      exact hx.reused ⟨q, gate, rfl⟩ hboth.1
    · intro e' _
      rcases hx.other e rfl with ⟨q, gate, heq⟩ | hreach
      · cases heq
        exact .inl ⟨q, gate, rfl⟩
      · exact .inr fun hboth => hreach hboth.1
  | ok a =>
    obtain ⟨hP, hpost⟩ := hx.ok a rfl
    have hQ : Q ↔ P ∧ Q := ⟨fun hQ => ⟨hP, hQ⟩, And.right⟩
    exact (hf a hP hpost).congr hQ And.right

/-- A check that goes on where another left off. -/
theorem bind_of_imp {f : α → Except CompileError β} (hx : Verdict P R post x) (himp : Q → P)
    (hf : ∀ a, P → post a → Verdict Q S post' (f a)) : Verdict Q (R ∧ S) post' (x >>= f) := by
  apply (hx.bind hf).congr
  · exact ⟨And.right, fun hQ => ⟨himp hQ, hQ⟩⟩
  · exact id

theorem map {f : α → β} (hx : Verdict P R post x) (hf : ∀ a, P → post a → post' (f a)) :
    Verdict P R post' (x.map f) := by
  rw [map_eq_bind]
  apply (hx.bind (S := True) fun a hP hpost => .of_ok trivial (hf a hP hpost)).congr
  · exact iff_of_eq (and_true P)
  · exact fun hR => ⟨hR, trivial⟩

/-- Where the condition holds, reuse is reported exactly where there is one. -/
theorem reused_iff (h : Verdict P R post x) (hR : R) : ReportsReuse x ↔ ¬ P := by
  constructor
  · exact h.reused
  · intro hP
    cases x with
    | ok a => exact absurd (h.ok a rfl).1 hP
    | error e => exact (h.other e rfl).resolve_right (not_not_intro hR)

end Verdict

/-- How many results a target reaches back. -/
def Target.lookback : Target → Nat
  | .record offset => offset.natAbs
  | _ => 0

namespace Verification

open Mark

/-- The record targets of instructions reach back no further than the results before them; `seen`
counts those before the first. -/
def RecordsReach (seen : Nat) : List Instruction → Prop
  | [] => True
  | i :: rest =>
    (∀ t ∈ i.targets, t.lookback ≤ seen) ∧ RecordsReach (seen + i.measurementCount) rest

instance decidableRecordsReach : (seen : Nat) → (is : List Instruction) →
    Decidable (RecordsReach seen is)
  | _, [] => inferInstanceAs (Decidable True)
  | seen, i :: rest =>
    have := decidableRecordsReach (seen + i.measurementCount) rest
    inferInstanceAs (Decidable (_ ∧ _))

/-! ## One instruction -/

theorem verdict_checkRecords (seen : Nat) (i : Instruction) (targets : List Target) :
    Verdict True (∀ t ∈ targets, t.lookback ≤ seen) (fun _ => True)
      (checkRecords seen i targets) := by
  induction targets with
  | nil => exact .of_ok trivial trivial
  | cons t targets ih =>
    have hrest : Verdict True (∀ t' ∈ t :: targets, t'.lookback ≤ seen) (fun _ => True)
        (checkRecords seen i targets) :=
      ih.congr Iff.rfl fun h => (List.forall_mem_cons.1 h).2
    cases t with
    | record offset =>
      rw [checkRecords]
      split
      · next hlt =>
        refine ⟨fun _ h => (by cases h), fun ⟨_, _, h⟩ => (by cases h), fun e _ => .inr ?_⟩
        intro h
        exact absurd (h (.record offset) List.mem_cons_self) (Nat.not_le.2 hlt)
      · exact hrest
    | qubit _ | pauli _ _ | sweep _ | combiner => exact hrest

/-- Taking qubits into the open moment tells whether one of them is used again. -/
theorem verdict_claim {ms : List Mark} (hms : ReuseFree ms) (gate : String) (qubits : List Nat) :
    Verdict (ReuseFree (ms ++ qubits.map use)) True
      (fun used => used = openUses (ms ++ qubits.map use)) (claim gate (openUses ms) qubits) := by
  induction qubits generalizing ms with
  | nil =>
    rw [List.map_nil, List.append_nil]
    exact .of_ok hms rfl
  | cons q qubits ih =>
    have hstep : ms ++ (q :: qubits).map use = ms ++ [use q] ++ qubits.map use := by simp
    rw [claim, hstep]
    split
    · next hmem =>
      have hreused : ¬ ReuseFree (ms ++ [use q] ++ qubits.map use) := by
        intro h
        exact (reuseFree_concat_use.1 h.of_append_left).2 (by simpa using hmem)
      exact ⟨fun _ h => (by cases h), fun _ => hreused, fun _ _ => .inl ⟨q, gate, rfl⟩⟩
    · next hmem =>
      have hfree : ReuseFree (ms ++ [use q]) :=
        reuseFree_concat_use.2 ⟨hms, by simpa using hmem⟩
      have hopen : openUses (ms ++ [use q]) = q :: openUses ms := openUses_concat ms (use q)
      rw [← hopen]
      exact ih hfree

/-- The walk is past the marks `ms`, which are free of reuse, and has seen a number of results. -/
structure Follows (ms : List Mark) (seen : Nat) (s : State) : Prop where
  free : ReuseFree ms
  used : s.used = openUses ms
  measurements : s.measurements = seen

theorem follows_initial : Follows [] 0 {} where
  free := reuseFree_nil
  used := rfl
  measurements := rfl

variable {ms : List Mark} {seen : Nat} {s : State}

theorem measurementCount_of_isTick {i : Instruction} (h : i.isTick = true) :
    i.measurementCount = 0 := by
  have hname : i.name = Gate.name .tick := by simpa [Instruction.isTick] using h
  have hkind : i.kind = .tick := Instruction.kind_of_gate? (Instruction.gate?_of_name hname)
  rw [Instruction.measurementCount, hkind]

/-- What a step does to an instruction that ends no moment. -/
theorem stepInstruction_of_not_tick {i : Instruction} (h : i.isTick = false) (s : State) :
    stepInstruction false i s = (checkRecords s.measurements i i.targets >>= fun _ =>
      (if isExempt i then .ok s.used else claim i.name s.used i.qubits).map fun used =>
        { s with used, measurements := s.measurements + i.measurementCount }) := by
  rw [stepInstruction, h]
  simp only [Bool.or_false, Bool.false_eq_true, if_false]
  split <;> rfl

/-- One step tells whether the marks of the instruction bring about a reuse. -/
theorem verdict_stepInstruction (hs : Follows ms seen s) (i : Instruction) :
    Verdict (ReuseFree (ms ++ i.wholeMarks)) (∀ t ∈ i.targets, t.lookback ≤ seen)
      (Follows (ms ++ i.wholeMarks) (seen + i.measurementCount)) (stepInstruction false i s) := by
  by_cases htick : i.isTick = true
  · have hfree : ReuseFree (ms ++ [boundary]) := reuseFree_concat_boundary.2 hs.free
    rw [stepInstruction, if_pos htick, Instruction.wholeMarks, if_pos htick,
      measurementCount_of_isTick htick]
    exact .of_ok hfree ⟨hfree, (openUses_concat ms boundary).symm, hs.measurements⟩
  · rw [stepInstruction_of_not_tick (by simpa using htick), Instruction.wholeMarks, if_neg htick,
      hs.measurements]
    have hclaim : Verdict (ReuseFree (ms ++ if isExempt i then [] else i.qubits.map use)) True
        (fun used => used = openUses (ms ++ if isExempt i then [] else i.qubits.map use))
        (if isExempt i then .ok s.used else claim i.name s.used i.qubits) := by
      rw [hs.used]
      split
      · rw [List.append_nil]
        exact .of_ok hs.free rfl
      · exact verdict_claim hs.free i.name i.qubits
    apply ((verdict_checkRecords seen i i.targets).bind_of_imp (fun _ => trivial)
      fun _ _ _ => hclaim.map ?_).congr Iff.rfl fun h => ⟨h, trivial⟩
    intro used hfree hused
    exact ⟨hfree, hused, rfl⟩

/-! ## A whole walk -/

/-- A run over instructions tells whether their marks bring about a reuse. -/
theorem verdict_run (hs : Follows ms seen s) (is : List Instruction) :
    Verdict (ReuseFree (ms ++ is.flatMap Instruction.wholeMarks)) (RecordsReach seen is)
      (fun _ => True) (is.foldlM (fun s i => stepInstruction false i s) s) := by
  induction is generalizing ms seen s with
  | nil =>
    rw [List.flatMap_nil, List.append_nil]
    exact .of_ok hs.free trivial
  | cons i is ih =>
    rw [List.foldlM_cons, List.flatMap_cons, ← List.append_assoc]
    apply (verdict_stepInstruction hs i).bind_of_imp
    · exact ReuseFree.of_append_left
    · intro s' _ hs'
      exact ih hs'

theorem iterate_eq_foldlM {allowReuse : Bool} {is : List Instruction}
    {step : State → Except CompileError State}
    (hstep : ∀ s, step s = is.foldlM (fun s i => stepInstruction allowReuse i s) s) (count : Nat)
    (s : State) : iterate step count s =
      (List.replicate count is).flatten.foldlM (fun s i => stepInstruction allowReuse i s) s := by
  induction count generalizing s with
  | zero => rfl
  | succ count ih =>
    rw [List.replicate_succ, List.flatten_cons, List.foldlM_append, ← hstep, iterate]
    cases step s with
    | error e => rfl
    | ok s' => exact ih s'

mutual

/-- The walk is a run over the unrolled circuit. -/
theorem walkAll_eq_foldlM (allowReuse : Bool) : (ops : List Operation) → (s : State) →
    walkAll allowReuse ops s = (Circuit.unrolled (fun i => [i]) ops).foldlM
      (fun s i => stepInstruction allowReuse i s) s
  | [], s => rfl
  | op :: rest, s => by
    rw [walkAll, Circuit.unrolled, List.foldlM_append, ← walkOperation_eq_foldlM allowReuse op s]
    cases walkOperation allowReuse op s with
    | error e => rfl
    | ok s' => exact walkAll_eq_foldlM allowReuse rest s'

theorem walkOperation_eq_foldlM (allowReuse : Bool) : (op : Operation) → (s : State) →
    walkOperation allowReuse op s = (Circuit.unrolledOperation (fun i => [i]) op).foldlM
      (fun s i => stepInstruction allowReuse i s) s
  | .instruction i, s => by
    rw [walkOperation, Circuit.unrolledOperation, List.foldlM_cons]
    cases stepInstruction allowReuse i s <;> rfl
  | .block count body, s => by
    rw [walkOperation, Circuit.unrolledOperation]
    exact iterate_eq_foldlM (walkAll_eq_foldlM allowReuse body) count s

end

/-- Verification reports reuse exactly where the unrolled circuit has one, unless a record target
reaches back too far. -/
theorem verdict_verify (c : Circuit) :
    Verdict (ReuseFree (Circuit.unrolled Instruction.wholeMarks c))
      (RecordsReach 0 (Circuit.unrolled (fun i => [i]) c)) (fun _ => True) (verify false c) := by
  rw [verify, walkAll_eq_foldlM, Circuit.unrolled_eq_flatMap]
  exact (verdict_run follows_initial _).map fun _ _ _ => trivial

end Verification

end StabCircuit
