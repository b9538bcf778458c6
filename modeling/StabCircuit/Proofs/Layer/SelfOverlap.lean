import StabCircuit.Proofs.Circuit.Parsed
import StabCircuit.Proofs.Circuit.Settled
import StabCircuit.Proofs.Layer.Disjointness

/-!
# Operations that overlap themselves

A two-qubit gate on one qubit and a product that names a qubit twice overlap
themselves.  The change to the Z basis fails on exactly the circuits with such an
operation.  Splitting, the change of basis and fusing neither hide an overlap nor
bring one about; and since local optimization drops loops that never run, the
check looks at exactly the layers whose instructions run.
-/

namespace StabCircuit

/-- A pair of targets is one qubit twice, or a measured product names a qubit twice. -/
def Instruction.RepeatsQubit (i : Instruction) : Prop :=
  (i.kind.isPairwise = true ∨ i.kind = .measureProduct) ∧
    ∃ group ∈ i.targetGroups, ¬ (group.filterMap Target.qubit?).Nodup

instance : DecidablePred Instruction.RepeatsQubit := fun _ =>
  inferInstanceAs (Decidable (_ ∧ _))

/-- An operation that is neither classically controlled nor an error channel repeats a qubit. -/
def Instruction.OverlapsItself (i : Instruction) : Prop :=
  i.isClassicallyControlled = false ∧ i.kind.isNoise = false ∧ i.RepeatsQubit

instance : DecidablePred Instruction.OverlapsItself := fun _ =>
  inferInstanceAs (Decidable (_ ∧ _ ∧ _))

theorem Instruction.not_overlapsItself_iff {i : Instruction} :
    ¬ i.OverlapsItself ↔ (i.isClassicallyControlled = false → i.PiecesApart) := by
  have hkind : i.kind = .clifford2 ∨ i.kind = .measureProduct ↔
      i.kind.isNoise = false ∧ (i.kind.isPairwise = true ∨ i.kind = .measureProduct) := by
    cases i.kind <;> decide
  simp only [OverlapsItself, RepeatsQubit, PiecesApart, hkind, not_and, not_exists, not_not,
    and_imp]

namespace Layer

/-! ## Loops that run -/

mutual

/-- A loop runs, and so do the loops in it. -/
def Runs : Layer → Prop
  | loop count body => count ≠ 0 ∧ AllRun body
  | _ => True

/-- All loops run, at every depth. -/
def AllRun : List Layer → Prop
  | [] => True
  | l :: rest => Runs l ∧ AllRun rest

end

theorem runs_of_isLoop_eq_false {l : Layer} (h : l.isLoop = false) : Runs l := by
  cases l with
  | loop count body => simp [isLoop] at h
  | _ => trivial

theorem allRun_iff {ls : List Layer} : AllRun ls ↔ ∀ l ∈ ls, Runs l := by
  induction ls with
  | nil => simp [AllRun]
  | cons l rest ih => simp only [AllRun, ih, List.forall_mem_cons]

theorem allRun_reverse {ls : List Layer} : AllRun ls.reverse ↔ AllRun ls := by
  simp only [allRun_iff, List.mem_reverse]

/-- Fusing makes no loops. -/
theorem eq_of_mem_fuse {l next j : Layer} (hj : j ∈ fuse l next) (hloop : j.isLoop = true) :
    j = l ∨ j = next := by
  have hfused := fused_fuse l next
  generalize fuse l next = result at hfused hj
  cases hfused with
  | emptyRight => exact .inl (List.mem_singleton.1 hj)
  | emptyLeft => exact .inr (List.mem_singleton.1 hj)
  | rotationReset a resets =>
    rcases List.mem_pair.1 hj with rfl | rfl <;> simp [isLoop] at hloop
  | joined h =>
    obtain rfl := List.mem_singleton.1 hj
    simp [(absorbed_of_absorb? h).1.isLoop.2.2] at hloop
  | kept => exact List.mem_pair.1 hj
  | rotations _ _ | interactSwap _ | swapInteract _ | shifts _ _ =>
    obtain rfl := List.mem_singleton.1 hj
    simp [isLoop] at hloop

theorem runs_of_mem_fusedWith {l next j : Layer} (hl : Runs l)
    (hnext : next.isVacuous = true ∨ Runs next) (hj : j ∈ l.fusedWith next) : Runs j := by
  obtain ⟨hfuse, hvacuous⟩ := List.mem_filter.1 hj
  cases hloop : j.isLoop with
  | false => exact runs_of_isLoop_eq_false hloop
  | true =>
    rcases eq_of_mem_fuse hfuse hloop with rfl | rfl
    · exact hl
    · exact hnext.resolve_left (by simpa using hvacuous)

theorem allRun_pushFused {stack : List Layer} {l : Layer} (hstack : AllRun stack)
    (hl : l.isVacuous = true ∨ Runs l) : AllRun (LayerCircuit.pushFused stack l) := by
  rw [allRun_iff] at hstack ⊢
  unfold LayerCircuit.pushFused
  cases stack with
  | nil =>
    cases hvacuous : l.isVacuous with
    | true => simp [hvacuous]
    | false => simpa [hvacuous] using hl
  | cons top rest =>
    rw [List.forall_mem_cons] at hstack
    intro j hj
    rcases List.mem_append.1 ((List.dropWhile_sublist _).subset hj) with hj | hj
    · exact runs_of_mem_fusedWith hstack.1 hl (List.mem_reverse.1 hj)
    · exact hstack.2 j hj

theorem allRun_optimizeFrom_of {ls : List Layer}
    (hls : ∀ l ∈ ls, (LayerCircuit.optimizeLayer l).isVacuous = true ∨
      Runs (LayerCircuit.optimizeLayer l)) (stack : List Layer) (hstack : AllRun stack) :
    AllRun (LayerCircuit.optimizeFrom stack ls) := by
  induction ls generalizing stack with
  | nil => exact hstack
  | cons l rest ih =>
    rw [List.forall_mem_cons] at hls
    exact ih hls.2 _ (allRun_pushFused hstack hls.1)

theorem runs_optimizeLayer (l : Layer) : (LayerCircuit.optimizeLayer l).isVacuous = true ∨
    Runs (LayerCircuit.optimizeLayer l) := by
  induction l using loopInduction with
  | plain l hl =>
    rw [optimizeLayer_of_isLoop_eq_false hl]
    exact .inr (runs_of_isLoop_eq_false hl)
  | loop count body ih =>
    rw [LayerCircuit.optimizeLayer]
    by_cases hcount : count = 0
    · exact .inl (by simp [isVacuous, hcount])
    · exact .inr ⟨hcount, allRun_reverse.2 (allRun_optimizeFrom_of ih [] trivial)⟩

/-- Local optimization leaves no loop that does not run. -/
theorem allRun_optimized (ls : LayerCircuit) : AllRun ls.optimized :=
  allRun_reverse.2 (allRun_optimizeFrom_of (fun l _ => runs_optimizeLayer l) [] trivial)

/-! ## The check -/

/-- Where all loops run, the check passes exactly on layers that are disjoint at every depth. -/
theorem checkDisjoint_eq_ok_iff {ls : List Layer} (hls : AllRun ls) :
    LayerCircuit.checkDisjoint ls = .ok () ↔ AllHold (fun l => l.isDisjoint = true) ls := by
  have hlayer : ∀ l : Layer, Runs l →
      (LayerCircuit.checkLayer l = .ok () ↔ Holds (fun l => l.isDisjoint = true) l) := by
    intro l hl
    induction l using loopInduction with
    | plain l hplain =>
      rw [checkLayer_eq_ok_of_isLoop_eq_false hplain, holds_of_isLoop_eq_false hplain]
    | loop count body ih =>
      obtain ⟨hcount, hbody⟩ := hl
      rw [LayerCircuit.checkLayer, checkDisjoint_iff, Holds, allHold_iff]
      simp only [hcount, ne_eq, not_false_eq_true, true_imp_iff]
      exact forall₂_congr fun l hl => ih l hl (allRun_iff.1 hbody l hl)
  rw [checkDisjoint_iff, allHold_iff]
  exact forall₂_congr fun l hl => hlayer l (allRun_iff.1 hls l hl)

theorem exists_checkLayer_eq_error {ls : List Layer} {e : CompileError}
    (h : LayerCircuit.checkDisjoint ls = .error e) :
    ∃ l ∈ ls, LayerCircuit.checkLayer l = .error e := by
  induction ls with
  | nil => cases h
  | cons l rest ih =>
    rw [LayerCircuit.checkDisjoint] at h
    split at h
    · obtain ⟨j, hj, he⟩ := ih h
      exact ⟨j, List.mem_cons_of_mem l hj, he⟩
    · next he =>
      cases h
      exact ⟨l, List.mem_cons_self, he⟩

/-- What the check fails with is an overlap. -/
theorem overlappingLayer_of_checkDisjoint {ls : List Layer} {e : CompileError}
    (h : LayerCircuit.checkDisjoint ls = .error e) :
    ∃ kind qubits, e = .overlappingLayer kind qubits := by
  have hlayer : ∀ l : Layer, LayerCircuit.checkLayer l = .error e →
      ∃ kind qubits, e = .overlappingLayer kind qubits := by
    intro l hl
    induction l using loopInduction with
    | plain l hplain =>
      rw [checkLayer_of_isLoop_eq_false hplain] at hl
      split at hl
      · cases hl
      · cases hl
        exact ⟨_, _, rfl⟩
    | loop count body ih =>
      rw [LayerCircuit.checkLayer] at hl
      obtain ⟨j, hj, he⟩ := exists_checkLayer_eq_error hl
      exact ih j hj he
  obtain ⟨l, -, hl⟩ := exists_checkLayer_eq_error h
  exact hlayer l hl

end Layer

/-! ## The whole pass -/

namespace LayerCircuit

/-- The layers that are written pass the check exactly when no instruction overlaps itself. -/
theorem checkDisjoint_optimized_toZ_iff {c : Circuit} (hc : Circuit.Built c)
    {layers : LayerCircuit} (hlayers : ofCircuit c = .ok layers) :
    checkDisjoint (optimized (toZ layers)) = .ok () ↔
      ∀ i ∈ Circuit.instructions c, ¬ i.OverlapsItself := by
  have hruns : ∀ i, i ∈ Circuit.unrolled (fun i => [i]) c ↔ i ∈ Circuit.instructions c :=
    fun i => ⟨Circuit.mem_instructions_of_mem_unrolled c,
      Circuit.mem_unrolled_of_settled c hc.settled⟩
  calc checkDisjoint (optimized (toZ layers)) = .ok ()
      ↔ Layer.AllHold (fun l => l.isDisjoint = true) (optimized (toZ layers)) :=
        Layer.checkDisjoint_eq_ok_iff (Layer.allRun_optimized _)
    _ ↔ Layer.AllHold (fun l => l.isDisjoint = true) layers := by
        rw [Layer.stable_isDisjoint.allHold_optimized, Layer.stableToZ_isDisjoint.allHold_toZ]
    _ ↔ ∀ i ∈ Circuit.unrolled (fun i => [i]) c,
          (i.isClassicallyControlled = false → i.PiecesApart) :=
        Layer.stable_isDisjoint.allHold_ofCircuit_iff
          (fun _ _ hi h => Layer.isDisjoint_yields_iff hi h) hc.checked hlayers
    _ ↔ ∀ i ∈ Circuit.instructions c, ¬ i.OverlapsItself := by
        simp only [hruns, Instruction.not_overlapsItself_iff]

/-- What the layers in the Z basis are written with is accepted by the gates. -/
theorem allHold_isChecked_optimized_toZ {c : Circuit} (hc : Circuit.Built c)
    {layers : LayerCircuit} (hlayers : ofCircuit c = .ok layers) :
    Layer.AllHold (fun l => ∀ i ∈ l.instructions, i.IsChecked) (optimized (toZ layers)) := by
  have hcarried : Layer.AllHold (Layer.Carries Instruction.IsChecked) layers :=
    (Layer.stable_carries _).allHold_ofCircuit
      (fun _ _ hi h => Layer.carries_of_yields hi (fun _ => hi) h) hc.checked hlayers
  rw [← (Layer.stableToZ_carries _).allHold_toZ, ← (Layer.stable_carries _).allHold_optimized]
    at hcarried
  exact hcarried.mono fun l hl => Layer.isChecked_of_mem_instructions hl

/-- A text that is read as a circuit with a property and splits into layers, from its evaluation. -/
theorem exists_layers_of_any {text : String} {P : Circuit → Prop} [DecidablePred P]
    (h : ((Circuit.parse text).toOption.any fun c =>
      (ofCircuit c).isOk && decide (P c)) = true) :
    ∃ c layers, Circuit.parse text = .ok c ∧ ofCircuit c = .ok layers ∧ P c := by
  cases hc : Circuit.parse text with
  | error e => simp [hc, Except.toOption] at h
  | ok c =>
    simp only [hc, Except.toOption, Option.any_some, Bool.and_eq_true, decide_eq_true_eq] at h
    cases hlayers : ofCircuit c with
    | error e => simp [hlayers, Except.isOk, Except.toBool] at h
    | ok layers => exact ⟨c, layers, rfl, hlayers, h.2⟩

end LayerCircuit

/-- A circuit that splits into layers fails to be rewritten, with an overlap, when some operation
in it overlaps itself, and is rewritten, with instructions that the gates accept, when none does. -/
theorem zBasisCircuit_overlaps {text : String} {c : Circuit} {layers : LayerCircuit}
    (hc : Circuit.parse text = .ok c) (hlayers : LayerCircuit.ofCircuit c = .ok layers) :
    ((∃ i ∈ Circuit.instructions c, i.OverlapsItself) →
      ∃ kind qubits, LayerCircuit.zBasisCircuit c = .error (.overlappingLayer kind qubits)) ∧
    ((∀ i ∈ Circuit.instructions c, ¬ i.OverlapsItself) →
      LayerCircuit.zBasisCircuit c =
        .ok (LayerCircuit.optimized (LayerCircuit.toZ layers)).toCircuit ∧
      Layer.AllHold
        (fun l => ∀ i ∈ l.instructions, Instruction.make i.name i.targets i.args = .ok i)
        (LayerCircuit.optimized (LayerCircuit.toZ layers))) := by
  have hbuilt := Circuit.Built.of_parse hc
  have hcheck := LayerCircuit.checkDisjoint_optimized_toZ_iff hbuilt hlayers
  constructor
  · rintro ⟨i, hi, hoverlaps⟩
    cases hresult : LayerCircuit.checkDisjoint
        (LayerCircuit.optimized (LayerCircuit.toZ layers)) with
    | ok _ => exact absurd hoverlaps (hcheck.1 hresult i hi)
    | error e =>
      obtain ⟨kind, qubits, rfl⟩ := Layer.overlappingLayer_of_checkDisjoint hresult
      refine ⟨kind, qubits, ?_⟩
      simp [LayerCircuit.zBasisCircuit, hlayers, hresult, bind, Except.bind]
  · intro hnone
    have hresult := hcheck.2 hnone
    refine ⟨?_, LayerCircuit.allHold_isChecked_optimized_toZ hbuilt hlayers⟩
    simp [LayerCircuit.zBasisCircuit, hlayers, hresult, bind, Except.bind, pure, Except.pure]

/-- A product that names a qubit twice, in a loop. -/
def repeatedFactorText : String := "H 0\nREPEAT 3 \x7b\nCX 0 1\nMPP X0*Z1*X0 Z2\n\x7d\n"

/-- Feedback and an error channel that repeat a qubit, next to operations that do not. -/
def repeatedNoiseText : String :=
  "M 0\nCX rec[-1] 1 2 2\nDEPOLARIZE2(0.1) 0 0\nREPEAT 3 \x7b\nXCX 0 1 1 2\nMPP X0*Z1\n\x7d\n"

theorem zBasisCircuit_overlaps_loops :
    (∃ c layers, Circuit.parse repeatedFactorText = .ok c ∧ LayerCircuit.ofCircuit c = .ok layers ∧
      (∃ i ∈ Circuit.instructions c, i.OverlapsItself) ∧
      ∃ kind qubits, LayerCircuit.zBasisCircuit c = .error (.overlappingLayer kind qubits)) ∧
    ∃ c layers, Circuit.parse repeatedNoiseText = .ok c ∧ LayerCircuit.ofCircuit c = .ok layers ∧
      (∀ i ∈ Circuit.instructions c, ¬ i.OverlapsItself) ∧
      LayerCircuit.zBasisCircuit c =
        .ok (LayerCircuit.optimized (LayerCircuit.toZ layers)).toCircuit := by
  constructor
  · obtain ⟨c, layers, hc, hlayers, hoverlaps⟩ := @LayerCircuit.exists_layers_of_any
      repeatedFactorText (fun c => ∃ i ∈ Circuit.instructions c, i.OverlapsItself) _
      (by decide +kernel)
    exact ⟨c, layers, hc, hlayers, hoverlaps, (zBasisCircuit_overlaps hc hlayers).1 hoverlaps⟩
  · obtain ⟨c, layers, hc, hlayers, hapart⟩ := @LayerCircuit.exists_layers_of_any
      repeatedNoiseText (fun c => ∀ i ∈ Circuit.instructions c, ¬ i.OverlapsItself) _
      (by decide +kernel)
    exact ⟨c, layers, hc, hlayers, hapart, ((zBasisCircuit_overlaps hc hlayers).2 hapart).1⟩

/-- An error channel on one qubit twice is rewritten all the same. -/
theorem zBasisCircuit_repeatedNoise :
    ¬ ∀ text c layers, Circuit.parse text = .ok c → LayerCircuit.ofCircuit c = .ok layers →
      ((∃ i ∈ Circuit.instructions c, i.isClassicallyControlled = false ∧ i.RepeatsQubit) →
        ∃ kind qubits, LayerCircuit.zBasisCircuit c = .error (.overlappingLayer kind qubits)) ∧
      ((∀ i ∈ Circuit.instructions c, ¬ (i.isClassicallyControlled = false ∧ i.RepeatsQubit)) →
        ∃ out, LayerCircuit.zBasisCircuit c = .ok out) := by
  intro hall
  obtain ⟨c, layers, hc, hlayers, hrepeats, hout⟩ := @LayerCircuit.exists_layers_of_any
    "DEPOLARIZE2(0.1) 0 0\n" (fun c =>
      (∃ i ∈ Circuit.instructions c, i.isClassicallyControlled = false ∧ i.RepeatsQubit) ∧
        (LayerCircuit.zBasisCircuit c).isOk = true) _ (by decide +kernel)
  obtain ⟨kind, qubits, herror⟩ := (hall _ c layers hc hlayers).1 hrepeats
  simp [herror, Except.isOk, Except.toBool] at hout

end StabCircuit
