import StabCircuit.Pass.Pipeline
import StabCircuit.Proofs.Moment.Verified
import StabCircuit.Proofs.Record.References

/-!
# What verification finds out about record targets

Under a noise model that allows reuse, verification is a check of record targets
alone.  Its walk counts the results behind it at every point of the unrolled circuit,
so it succeeds exactly where every record target that it looks at reaches back to a
result, and it ends with the number of results that the circuit counts by
multiplication.
-/

namespace StabCircuit

/-- The number of results of instructions that run one after another. -/
def resultsOf : List Instruction → Nat
  | [] => 0
  | i :: rest => i.measurementCount + resultsOf rest

/-- The record targets of the instructions that `p` picks reach back no further than the results of
the instructions before them; `seen` results came before the first. -/
def ReachRecorded (p : Instruction → Prop) (seen : Nat) (is : List Instruction) : Prop :=
  ∀ before i after, is = before ++ i :: after → p i →
    ∀ offset, Target.record offset ∈ i.targets → offset.natAbs ≤ seen + resultsOf before

theorem reachRecorded_nil (p : Instruction → Prop) (seen : Nat) : ReachRecorded p seen [] := by
  intro before i after h
  simp at h

theorem reachRecorded_cons {p : Instruction → Prop} {seen : Nat} {i : Instruction}
    {is : List Instruction} :
    ReachRecorded p seen (i :: is) ↔
      (p i → ∀ offset, Target.record offset ∈ i.targets → offset.natAbs ≤ seen) ∧
        ReachRecorded p (seen + i.measurementCount) is := by
  have hstep : ∀ before, seen + resultsOf (i :: before) =
      seen + i.measurementCount + resultsOf before := by
    intro before
    simp [resultsOf, Nat.add_assoc]
  constructor
  · intro h
    refine ⟨h [] i is rfl, ?_⟩
    rintro before j after rfl hj offset hoffset
    rw [← hstep]
    exact h (i :: before) j after rfl hj offset hoffset
  · rintro ⟨hfirst, hrest⟩ before j after hsplit hj offset hoffset
    cases before with
    | nil =>
      obtain ⟨rfl, rfl⟩ := List.cons.inj hsplit
      exact hfirst hj offset hoffset
    | cons b before =>
      obtain ⟨rfl, rfl⟩ := List.cons.inj hsplit
      rw [hstep]
      exact hrest before j after rfl hj offset hoffset

theorem length_flatMap_results (is : List Instruction) :
    (is.flatMap Instruction.results).length = resultsOf is := by
  induction is with
  | nil => rfl
  | cons i is ih => rw [List.flatMap_cons, List.length_append, ih, i.length_results, resultsOf]

/-- The results of the unrolled circuit are those that the circuit counts by multiplication. -/
theorem Circuit.resultsOf_unrolled (c : Circuit) :
    resultsOf (unrolled (fun i => [i]) c) = measurementCount c := by
  rw [← length_unrolled_results, unrolled_eq_flatMap Instruction.results, length_flatMap_results]

namespace Verification

/-! ## One instruction -/

theorem checkRecords_eq_ok {seen : Nat} {i : Instruction} {targets : List Target} :
    checkRecords seen i targets = .ok () ↔
      ∀ offset, Target.record offset ∈ targets → offset.natAbs ≤ seen := by
  induction targets with
  | nil => simp [checkRecords]
  | cons t targets ih =>
    cases t with
    | record offset =>
      rw [checkRecords]
      split
      · next hlt =>
        refine iff_of_false (by simp) fun h => ?_
        exact absurd (h offset List.mem_cons_self) (Nat.not_le.2 hlt)
      · next hle =>
        rw [ih]
        constructor
        · intro h other hother
          rcases List.mem_cons.1 hother with hsame | hother
          · cases hsame
            exact Nat.not_lt.1 hle
          · exact h other hother
        · intro h other hother
          exact h other (List.mem_cons_of_mem _ hother)
    | qubit _ | pauli _ _ | sweep _ | combiner => simpa [checkRecords] using ih

/-- The state after an instruction, when qubits may be used again. -/
def advance (s : State) (i : Instruction) : State :=
  if i.isTick then { s with used := [], moments := s.moments + 1 }
  else { s with measurements := s.measurements + i.measurementCount }

theorem measurements_advance (s : State) (i : Instruction) :
    (advance s i).measurements = s.measurements + i.measurementCount := by
  unfold advance
  split
  · next htick =>
    rw [measurementCount_of_isTick htick]
    rfl
  · rfl

/-- A step goes on exactly where the record targets of an instruction other than a step boundary
reach back to results. -/
theorem stepInstruction_reuse_eq_ok {i : Instruction} {s s' : State} :
    stepInstruction true i s = .ok s' ↔
      (i.isTick = false →
        ∀ offset, Target.record offset ∈ i.targets → offset.natAbs ≤ s.measurements) ∧
        advance s i = s' := by
  unfold stepInstruction advance
  cases htick : i.isTick with
  | true => simp
  | false =>
    simp only [Bool.false_eq_true, if_false, Bool.or_true, if_true, forall_const]
    rw [bind_eq_ok]
    constructor
    · rintro ⟨_, hrecords, h⟩
      cases h
      exact ⟨checkRecords_eq_ok.1 hrecords, rfl⟩
    · rintro ⟨hrecords, rfl⟩
      exact ⟨(), checkRecords_eq_ok.2 hrecords, rfl⟩

/-! ## A whole walk -/

/-- A run goes on exactly where all record targets outside step boundaries reach back to results. -/
theorem run_reuse_eq_ok {is : List Instruction} {s s' : State} :
    is.foldlM (fun s i => stepInstruction true i s) s = .ok s' ↔
      ReachRecorded (fun i => i.isTick = false) s.measurements is ∧ is.foldl advance s = s' := by
  induction is generalizing s with
  | nil =>
    rw [List.foldlM_nil, pure_eq_ok, List.foldl_nil]
    exact (and_iff_right (reachRecorded_nil _ _)).symm
  | cons i is ih =>
    rw [List.foldlM_cons, bind_eq_ok, reachRecorded_cons, List.foldl_cons]
    constructor
    · rintro ⟨mid, hstep, hrun⟩
      obtain ⟨hfirst, rfl⟩ := stepInstruction_reuse_eq_ok.1 hstep
      obtain ⟨hrest, hlast⟩ := ih.1 hrun
      rw [measurements_advance] at hrest
      exact ⟨⟨hfirst, hrest⟩, hlast⟩
    · rintro ⟨⟨hfirst, hrest⟩, hlast⟩
      rw [← measurements_advance] at hrest
      exact ⟨advance s i, stepInstruction_reuse_eq_ok.2 ⟨hfirst, rfl⟩, ih.2 ⟨hrest, hlast⟩⟩

theorem measurements_foldl_advance (s : State) (is : List Instruction) :
    (is.foldl advance s).measurements = s.measurements + resultsOf is := by
  induction is generalizing s with
  | nil => rfl
  | cons i is ih =>
    rw [List.foldl_cons, ih, measurements_advance, resultsOf, Nat.add_assoc]

/-- Verification succeeds exactly where all record targets outside step boundaries reach back to
results, and it counts the results of the circuit. -/
theorem verify_reuse_eq_ok {c : Circuit} {r : VerificationResult} (h : verify true c = .ok r) :
    ReachRecorded (fun i => i.isTick = false) 0 (Circuit.unrolled (fun i => [i]) c) ∧
      r.measurements = Circuit.measurementCount c := by
  obtain ⟨s, hwalk, rfl⟩ := map_eq_ok.1 h
  rw [walkAll_eq_foldlM, run_reuse_eq_ok] at hwalk
  obtain ⟨hreach, rfl⟩ := hwalk
  refine ⟨hreach, ?_⟩
  dsimp only
  rw [measurements_foldl_advance, Circuit.resultsOf_unrolled, Nat.zero_add]

theorem exists_verify_reuse {c : Circuit}
    (h : ReachRecorded (fun i => i.isTick = false) 0 (Circuit.unrolled (fun i => [i]) c)) :
    ∃ r, verify true c = .ok r := by
  have hwalk : walkAll true c {} =
      .ok ((Circuit.unrolled (fun i => [i]) c).foldl advance {}) := by
    rw [walkAll_eq_foldlM, run_reuse_eq_ok]
    exact ⟨h, rfl⟩
  rw [verify, hwalk]
  exact ⟨_, rfl⟩

end Verification

/-! ## The pass -/

theorem runPasses_of_verify {job : Job} {r : VerificationResult}
    (h : Verification.verify job.properties.allowsReuse job.circuit = .ok r) :
    runPasses job [.verification] =
      ({ job with
          properties := { job.properties with
            store := job.properties.store.insert .verification r } }, .ok ()) := by
  simp [runPasses, Pass.shouldRun, Pass.run, h, Except.map]

theorem runPasses_of_verify_error {job : Job} {e : CompileError}
    (h : Verification.verify job.properties.allowsReuse job.circuit = .error e) :
    runPasses job [.verification] = (job, .error e) := by
  simp [runPasses, Pass.shouldRun, Pass.run, h, Except.map]

/-- Verification under a noise model that allows reuse succeeds exactly where, in the unrolled
circuit, every record target of an instruction other than a step boundary reaches back no further
than the results of the instructions before it.  On success it reports as many results as the
circuit counts and leaves the circuit alone; on failure nothing changes, the report of an earlier
verification included. -/
theorem runPasses_verification {job : Job} {model : NoiseModel}
    (hmodel : job.properties.noise = some model) (hreuse : model.allowReuse = true) :
    ((runPasses job [.verification]).2 = .ok () ↔
      ReachRecorded (fun i => i.isTick = false) 0
        (Circuit.unrolled (fun i => [i]) job.circuit)) ∧
    ((runPasses job [.verification]).2 = .ok () →
      (runPasses job [.verification]).1.circuit = job.circuit ∧
        ∃ r, (runPasses job [.verification]).1.properties.verification? = some r ∧
          r.measurements = Circuit.measurementCount job.circuit) ∧
    ∀ e, (runPasses job [.verification]).2 = .error e →
      (runPasses job [.verification]).1 = job := by
  have hallows : job.properties.allowsReuse = true := by
    rw [Properties.allowsReuse, hmodel]
    exact hreuse
  cases hverify : Verification.verify true job.circuit with
  | ok r =>
    rw [runPasses_of_verify (hallows ▸ hverify)]
    obtain ⟨hreach, hcount⟩ := Verification.verify_reuse_eq_ok hverify
    refine ⟨iff_of_true rfl hreach, fun _ => ⟨rfl, r, rfl, hcount⟩, ?_⟩
    intro e he
    cases he
  | error e =>
    rw [runPasses_of_verify_error (hallows ▸ hverify)]
    refine ⟨iff_of_false (by rintro ⟨⟩) fun hreach => ?_, ?_, fun _ _ => rfl⟩
    · obtain ⟨r, hr⟩ := Verification.exists_verify_reuse hreach
      rw [hverify] at hr
      cases hr
    · rintro ⟨⟩

/-- Nested loops whose references reach into the iteration before, and past the inner loop. -/
def echoRounds : Circuit :=
  [.instruction (.onQubits (.measure .z) [0] []),
    .block 2 [
      .block 3 [
        .instruction ⟨Gate.detector.name, [.record (-1)], []⟩,
        .instruction (.onQubits (.measure .z) [1] []),
        .instruction ⟨Gate.detector.name, [.record (-1), .record (-2)], []⟩],
      .instruction ⟨Gate.detector.name, [.record (-4)], []⟩]]

/-- A job over the nested loops, with a noise model that allows reuse. -/
def echoJob : Job := ⟨echoRounds, { noise := some { allowReuse := true } }⟩

theorem runPasses_verification_echoRounds :
    echoJob.properties.noise = some { allowReuse := true } ∧
      ReachRecorded (fun i => i.isTick = false) 0 (Circuit.unrolled (fun i => [i]) echoRounds) ∧
      (runPasses echoJob [.verification]).1.circuit = echoRounds ∧
      ∃ r, (runPasses echoJob [.verification]).1.properties.verification? = some r ∧
        r.measurements = Circuit.measurementCount echoRounds := by
  have hok : (runPasses echoJob [.verification]).2 = .ok () := by
    have hpasses : (runPasses echoJob [.verification]).2.isOk = true := by decide +kernel
    cases hresult : (runPasses echoJob [.verification]).2 with
    | ok _ => rfl
    | error e =>
      rw [hresult] at hpasses
      cases hpasses
  have hnoise : echoJob.properties.noise = some { allowReuse := true } := rfl
  obtain ⟨hexact, hsuccess, -⟩ := runPasses_verification hnoise rfl
  exact ⟨rfl, hexact.1 hok, hsuccess hok⟩

/-- Step boundaries are passed over, with the targets that a circuit which was never checked may
give them. -/
theorem runPasses_verification_boundaryTarget :
    ¬ ∀ (job : Job) (model : NoiseModel), job.properties.noise = some model →
      model.allowReuse = true →
        ((runPasses job [.verification]).2 = .ok () ↔
          ReachRecorded (fun _ => True) 0 (Circuit.unrolled (fun i => [i]) job.circuit)) := by
  intro hall
  have hreach := (hall
    ⟨[.instruction ⟨Gate.tick.name, [.record (-1)], []⟩], { noise := some { allowReuse := true } }⟩
    { allowReuse := true } rfl rfl).1 rfl
  have hfar := hreach [] ⟨Gate.tick.name, [.record (-1)], []⟩ [] rfl trivial (-1) (by simp)
  exact absurd hfar (by decide)

end StabCircuit
