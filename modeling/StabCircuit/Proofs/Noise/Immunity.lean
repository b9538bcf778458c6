import StabCircuit.Proofs.Noise.Accounting
import StabCircuit.Proofs.Noise.Runs

/-!
# Immune qubits stay clean

No error channel that injection writes names an immune qubit, whichever of the rules,
idling, waiting or the noise of every moment calls for it.  A piece that touches an
immune qubit is copied as it is, also where the other pieces of its instruction get a
flip probability, so that such pieces are there with their gate and arguments, in
order and in every iteration.
-/

namespace StabCircuit

/-! ## Pieces on a set of qubits -/

namespace Instruction

/-- The pieces of an instruction that touch a set of qubits, with their gate and the numbers of
their arguments. -/
def groupsOn (qubits : OrderedSet Nat) : Instruction → List (Gate × List Int × List Target) :=
  shown fun g args group =>
    if (group.filterMap Target.qubit?).any fun q => qubits.contains q then [(g, args, group)]
    else []

theorem additive_groupsOn (qubits : OrderedSet Nat) : Circuit.Additive (groupsOn qubits) :=
  additive_shown _

theorem groupsOn_eq_nil {qubits : OrderedSet Nat} {i : Instruction}
    (h : (i.qubits.any fun q => qubits.contains q) = false) : i.groupsOn qubits = [] := by
  unfold groupsOn shown
  split
  · rfl
  · apply List.flatMap_eq_nil_iff.2
    intro group hgroup
    refine if_neg ?_
    rw [Bool.not_eq_true, List.any_eq_false]
    intro q hq
    have hmem : q ∈ i.qubits := by
      rw [← flatMap_qubit?_targetGroups]
      exact List.mem_flatMap.2 ⟨group, hgroup, hq⟩
    exact List.any_eq_false.1 h q hmem

theorem groupsOn_of_isTick (qubits : OrderedSet Nat) {i : Instruction} (hi : i.IsChecked)
    (h : i.isTick = true) : i.groupsOn qubits = [] := by
  apply groupsOn_eq_nil
  rw [Instruction.qubits, NoiseContext.targets_of_isTick hi h]
  rfl

end Instruction

namespace Circuit

/-- A checked instruction that names no qubit of a set if it is an error channel. -/
structure Clean (qubits : OrderedSet Nat) (i : Instruction) : Prop where
  checked : i.IsChecked
  noise : i.kind.isNoise = true → ∀ q ∈ i.qubits, qubits.contains q = false

theorem joinable_clean (qubits : OrderedSet Nat) : Joinable (Clean qubits) where
  checked _ h := h.checked
  join := by
    intro last next hlast hnext hfuses
    refine ⟨hlast.checked.join hnext.checked hfuses, ?_⟩
    intro hnoise q hq
    rw [Instruction.kind_join] at hnoise
    rw [Instruction.qubits, Instruction.join, List.filterMap_append, List.mem_append] at hq
    rcases hq with hq | hq
    · exact hlast.noise hnoise q hq
    · exact hnext.noise (kind_eq_of_fuses hfuses ▸ hnoise) q hq

theorem clean_tick (qubits : OrderedSet Nat) : Clean qubits .tick where
  checked := Instruction.isChecked_tick
  noise := by
    intro _ q hq
    simp [Instruction.qubits, Instruction.tick] at hq

end Circuit

namespace NoiseContext

open Circuit

variable {ctx : NoiseContext}

/-! ## Copies -/

/-- A copied piece, which is the piece itself when it touches an immune qubit. -/
structure Spared (immune : OrderedSet Nat) (p j : Instruction) : Prop where
  copied : Copied p j
  same : (p.qubits.any fun q => immune.contains q) = true → j = p

theorem piece_of_immune {m : Moment} {p : Instruction} {result : Moment × Instruction}
    (himmune : (p.qubits.any fun q => ctx.immune.contains q) = true)
    (h : ctx.piece m p = .ok result) : result.2 = p := by
  obtain ⟨observed, -, h⟩ := bind_eq_ok.1 h
  rw [if_pos himmune] at h
  cases h
  rfl

theorem copiesBy_spared (hvalid : ctx.model.IsValid) :
    ctx.CopiesBy CollectsChannels (Spared ctx.immune) where
  piece := by
    intro m p result hm h
    obtain ⟨hcollects, hcopied⟩ := copied_of_piece hvalid hm h
    exact ⟨hcollects, hcopied, fun himmune => piece_of_immune himmune h⟩
  active := id

theorem Spared.groupsOn {immune : OrderedSet Nat} {p j : Instruction} (h : Spared immune p j) :
    j.groupsOn immune = p.groupsOn immune := by
  by_cases himmune : (p.qubits.any fun q => immune.contains q) = true
  · rw [h.same himmune]
  · have hqubits : j.qubits = p.qubits := by
      cases h.copied <;> rfl
    rw [Bool.not_eq_true] at himmune
    rw [Instruction.groupsOn_eq_nil himmune, Instruction.groupsOn_eq_nil (hqubits ▸ himmune)]

/-- The copies of an instruction show of the immune qubits what the instruction shows. -/
theorem groupsOn_copiedBy {immune : OrderedSet Nat} {i : Instruction} {js : List Instruction}
    (hi : i.IsChecked) (h : CopiedBy (Spared immune) i js) :
    js.flatMap (Instruction.groupsOn immune) = i.groupsOn immune := by
  cases h with
  | whole => exact List.flatMap_singleton _ _
  | pieces hkind hjs =>
    have hpieces : (piecesOf i).flatMap (Instruction.groupsOn immune) = i.groupsOn immune := by
      rw [piecesOf, List.flatMap_map]
      exact Instruction.flatMap_shown_pieceOf _ hi hkind
    rw [← hpieces]
    generalize piecesOf i = ps at hjs
    induction hjs with
    | nil => rfl
    | cons hspared _ ih => rw [List.flatMap_cons, List.flatMap_cons, hspared.groupsOn, ih]

theorem groupsOn_copies {immune : OrderedSet Nat} {is : List Instruction}
    {copies : List (List Instruction)} (his : ∀ i ∈ is, i.IsChecked)
    (h : List.Forall₂ (CopiedBy (Spared immune)) is copies) :
    copies.flatten.flatMap (Instruction.groupsOn immune) =
      is.flatMap (Instruction.groupsOn immune) := by
  induction h with
  | nil => rfl
  | cons hcopied _ ih =>
    rw [List.forall_mem_cons] at his
    rw [List.flatten_cons, List.flatMap_append, groupsOn_copiedBy his.1 hcopied, ih his.2,
      List.flatMap_cons]

/-! ## Requests -/

/-- The applications name no immune qubit. -/
def AvoidsImmune (ctx : NoiseContext) (as : List Application) : Prop :=
  ∀ a ∈ as, ∀ q ∈ a.qubits, ctx.immune.contains q = false

theorem avoidsImmune_append {as bs : List Application} (has : ctx.AvoidsImmune as)
    (hbs : ctx.AvoidsImmune bs) : ctx.AvoidsImmune (as ++ bs) :=
  List.forall_mem_append.2 ⟨has, hbs⟩

theorem avoidsImmune_requestedBy {entries : List (String × Scalar)} {qubits : List Nat}
    (h : ∀ q ∈ qubits, ctx.immune.contains q = false) :
    ctx.AvoidsImmune (requestedBy entries qubits) := by
  intro a ha
  obtain ⟨entry, -, ha⟩ := List.mem_flatMap.1 ha
  split at ha
  · obtain ⟨g, -, rfl⟩ := Option.map_eq_some_iff.1 (Option.mem_toList.1 ha)
    exact h
  · simp at ha

theorem avoidsImmune_requestedFor (piece : Instruction) :
    ctx.AvoidsImmune (ctx.requestedFor piece) := by
  unfold requestedFor
  split
  · simp [AvoidsImmune]
  · next hexposed =>
    have hclean : ∀ q ∈ piece.qubits, ctx.immune.contains q = false := by simpa using hexposed
    split
    · exact avoidsImmune_requestedBy hclean
    · simp [AvoidsImmune]
    · simp [AvoidsImmune]

theorem noisyQubits_avoid (keep : Nat → Bool) :
    ∀ q ∈ ctx.noisyQubits keep, ctx.immune.contains q = false := by
  intro q hq
  have hkept := (List.mem_filter.1 hq).2
  rw [Bool.and_eq_true, Bool.not_eq_true'] at hkept
  exact hkept.1

theorem avoidsImmune_requestedIdle (p : Scalar) {qubits : List Nat}
    (h : ∀ q ∈ qubits, ctx.immune.contains q = false) :
    ctx.AvoidsImmune (requestedIdle p qubits) := by
  unfold requestedIdle
  split
  · exact List.forall_mem_singleton.2 h
  · simp [AvoidsImmune]

theorem avoidsImmune_requestedTick : ctx.AvoidsImmune ctx.requestedTick := by
  cases hnoise : ctx.model.tickNoise with
  | none =>
    rw [requestedTick_of_none hnoise]
    simp [AvoidsImmune]
  | some rule =>
    rw [requestedTick_of_some hnoise]
    split
    · simp [AvoidsImmune]
    · exact avoidsImmune_requestedBy (noisyQubits_avoid _)

/-- Nothing that is requested in a moment names an immune qubit. -/
theorem avoidsImmune_requests (is : List Instruction) : ctx.AvoidsImmune (ctx.requests is) := by
  have hwaiting : ∀ (any : Bool) (keep : Nat → Bool),
      ∀ q ∈ (if any then ctx.noisyQubits keep else []), ctx.immune.contains q = false := by
    intro any keep
    split
    · exact noisyQubits_avoid keep
    · simp
  apply avoidsImmune_append
  · intro a ha
    obtain ⟨piece, -, ha⟩ := List.mem_flatMap.1 ha
    exact avoidsImmune_requestedFor piece a ha
  · split
    · exact avoidsImmune_append (avoidsImmune_requestedIdle _ (noisyQubits_avoid _))
        (avoidsImmune_append (avoidsImmune_requestedIdle _ (hwaiting _ _))
          avoidsImmune_requestedTick)
    · simp [AvoidsImmune]

/-- Applications that show what is requested name no immune qubit either. -/
theorem avoidsImmune_of_shown {as : List Application} {is : List Instruction}
    (h : ∀ g p, (shown id g p as).Perm (shown id g p (ctx.requests is))) :
    ctx.AvoidsImmune as := by
  intro a ha q hq
  have hshown : q ∈ shown id a.gate a.strength as :=
    List.mem_flatMap.2 ⟨a, ha, by simpa using hq⟩
  obtain ⟨b, hb, hqb⟩ := List.mem_flatMap.1 ((h a.gate a.strength).mem_iff.1 hshown)
  split at hqb
  · exact avoidsImmune_requests is b hb q hqb
  · simp at hqb

/-! ## The run -/

/-- What is written is clean and shows of the immune qubits what was taken in. -/
structure Spares (immune : OrderedSet Nat) (done taken : List Operation) : Prop where
  clean : Everywhere (Clean immune) done
  shown : unrolled (Instruction.groupsOn immune) done.reverse =
    unrolled (Instruction.groupsOn immune) taken.reverse

theorem Application.IsSound.clean {a : Application} (h : a.IsSound)
    (hqubits : ∀ q ∈ a.qubits, ctx.immune.contains q = false) : Clean ctx.immune a.written where
  checked := h.checked
  noise := by
    intro _ q hq
    rw [Application.written, (reads_qubits a.gate).written] at hq
    exact hqubits q hq

/-- An application that names no immune qubit shows nothing of them. -/
theorem groupsOn_written {a : Application}
    (h : ∀ q ∈ a.qubits, ctx.immune.contains q = false) : a.written.groupsOn ctx.immune = [] := by
  apply Instruction.groupsOn_eq_nil
  rw [Application.written, (reads_qubits a.gate).written]
  simpa using h

theorem Spares.moment (hvalid : ctx.model.IsValid) {done taken out : List Operation}
    {is : List Instruction} (hdone : Spares ctx.immune done taken)
    (his : ∀ i ∈ is, i.IsChecked ∧ i.kind.isNoise = false) (h : ctx.moment done is = .ok out) :
    Spares ctx.immune out ((is.map .instruction).reverse ++ taken) := by
  obtain ⟨copied, as, hcopied, ⟨hsound, rfl⟩, hshown⟩ :=
    writes_of_copyMoment hvalid (fun i hi => (his i hi).2) h
  obtain ⟨copies, hcopies, hfold, -⟩ :=
    (copiesBy_spared hvalid).copyMoment collectsChannels_empty hcopied
  have hquiet : ∀ j ∈ copies.flatten, j.IsChecked ∧ j.kind.isNoise = false :=
    isChecked_of_copies his (hcopies.imp fun _ _ h => h.copiedAs fun _ _ h => h.copied)
  have havoids := avoidsImmune_of_shown fun g => hshown (splits_qubits g)
  have hwritten : ∀ j ∈ copies.flatten ++ as.map Application.written, Clean ctx.immune j := by
    rw [List.forall_mem_append, List.forall_mem_map]
    refine ⟨fun j hj => ⟨(hquiet j hj).1, ?_⟩, fun a ha => (hsound a ha).clean (havoids a ha)⟩
    simp [(hquiet j hj).2]
  rw [hfold, ← List.foldl_append]
  refine ⟨everywhere_foldl_pushReversed (joinable_clean _) hdone.clean hwritten, ?_⟩
  have hsilent : (as.map Application.written).flatMap (Instruction.groupsOn ctx.immune) = [] := by
    rw [List.flatMap_map, List.flatMap_eq_nil_iff]
    exact fun a ha => groupsOn_written (havoids a ha)
  rw [unrolled_foldl_pushReversed (Instruction.additive_groupsOn _)
    (hdone.clean.mono fun _ h => h.checked) fun j hj => (hwritten j hj).checked,
    List.flatMap_append, hsilent, List.append_nil,
    groupsOn_copies (fun i hi => (his i hi).1) hcopies, hdone.shown, List.reverse_append,
    List.reverse_reverse, unrolled_append, unrolled_map_instruction]

theorem keeps_spares (hvalid : ctx.model.IsValid) :
    ctx.Keeps (fun i => i.IsChecked ∧ i.kind.isNoise = false) (Spares ctx.immune) where
  start := ⟨everywhere_nil _, rfl⟩
  moment := by
    intro done taken out is hdone his h
    exact hdone.moment hvalid (fun i hi => (his i hi).1) h
  tick := by
    intro done taken i hdone hi htick
    refine ⟨everywhere_pushReversed (joinable_clean _) hdone.clean (clean_tick _), ?_⟩
    rw [unrolled_pushReversed (Instruction.additive_groupsOn _)
      (hdone.clean.mono fun _ h => h.checked) Instruction.isChecked_tick, unrolled_reverse_cons,
      unrolledOperation, hdone.shown, Instruction.groupsOn_of_isTick _ hi.1 htick,
      Instruction.groupsOn_of_isTick _ Instruction.isChecked_tick rfl]
  block := by
    intro done taken inner body count hdone hinner
    have hbody : Everywhere (Clean ctx.immune) (closeBody inner) :=
      everywhere_closeBody (joinable_clean _) (clean_tick _) hinner.clean
    have hshown := unrolled_closeBody (Instruction.additive_groupsOn ctx.immune)
      (Instruction.groupsOn_of_isTick _ Instruction.isChecked_tick rfl)
      (hinner.clean.mono fun _ h => h.checked)
    rw [hinner.shown, List.reverse_reverse] at hshown
    refine ⟨everywhere_addReversed (joinable_clean _) hdone.clean _ (within_block.2 hbody), ?_⟩
    rw [unrolled_addReversed (Instruction.additive_groupsOn _)
      (hdone.clean.mono fun _ h => h.checked) _
      (within_block.2 (hbody.mono fun _ h => h.checked)), unrolled_reverse_cons, hdone.shown,
      unrolledOperation, unrolledOperation, hshown]

end NoiseContext

/-- No error channel of a circuit with noise names an immune qubit, and the pieces that touch an
immune qubit are those of the circuit, in order and with their gates and arguments. -/
theorem noisyCircuit_sparesImmune {c out : Circuit} {model : NoiseModel} {immune : OrderedSet Nat}
    {system : Option (OrderedSet Nat)} (hc : Circuit.Everywhere Instruction.IsChecked c)
    (hnoise : Circuit.Everywhere (fun i => i.kind.isNoise = false) c)
    (h : noisyCircuit c model immune system = .ok out) :
    Circuit.Everywhere
        (fun i => i.kind.isNoise = true → ∀ q ∈ i.qubits, immune.contains q = false) out ∧
      Circuit.unrolled (Instruction.groupsOn immune) out =
        Circuit.unrolled (Instruction.groupsOn immune) c := by
  obtain ⟨_, hvalidate, hinject⟩ := bind_eq_ok.1 h
  have hvalid := NoiseModel.isValid_of_validate (lift_eq_ok.1 hvalidate)
  have hbare : Circuit.Everywhere (fun i => i.IsChecked ∧ i.kind.isNoise = false) c :=
    fun i hi => ⟨hc i hi, hnoise i hi⟩
  have hkeeps : NoiseContext.Keeps ⟨model, immune, system.getD (Circuit.qubits c)⟩ _ _ :=
    NoiseContext.keeps_spares hvalid
  obtain ⟨hclean, hshown⟩ := hkeeps.inject hbare hinject
  rw [List.reverse_reverse, List.reverse_reverse] at hshown
  exact ⟨(Circuit.everywhere_reverse.1 hclean).mono fun _ h => h.noise, hshown⟩

/-- Interactions, products and measurements that mix an immune qubit with others keep it clean in
every round, also where the system has it. -/
theorem noisyCircuit_sparesImmune_productRounds :
    Circuit.Everywhere Instruction.IsChecked productRounds ∧
      Circuit.Everywhere (fun i => i.kind.isNoise = false) productRounds ∧
      ∃ out, noisyCircuit productRounds (NoiseModel.superconducting (1 / 100))
          (OrderedSet.ofList [1]) (some (OrderedSet.ofList [0, 1, 2, 3])) = .ok out ∧
        Circuit.Everywhere (fun i => i.kind.isNoise = true →
          ∀ q ∈ i.qubits, (OrderedSet.ofList [1]).contains q = false) out ∧
        Circuit.unrolled (Instruction.groupsOn (OrderedSet.ofList [1])) out =
          Circuit.unrolled (Instruction.groupsOn (OrderedSet.ofList [1])) productRounds := by
  have hchecked : Circuit.Everywhere Instruction.IsChecked productRounds := by decide +kernel
  have hnoise : Circuit.Everywhere (fun i => i.kind.isNoise = false) productRounds := by
    decide +kernel
  have hok : (noisyCircuit productRounds (NoiseModel.superconducting (1 / 100))
      (OrderedSet.ofList [1]) (some (OrderedSet.ofList [0, 1, 2, 3]))).isOk = true := by
    decide +kernel
  refine ⟨hchecked, hnoise, ?_⟩
  cases hout : noisyCircuit productRounds (NoiseModel.superconducting (1 / 100))
      (OrderedSet.ofList [1]) (some (OrderedSet.ofList [0, 1, 2, 3])) with
  | error e => simp [hout, Except.isOk, Except.toBool] at hok
  | ok out => exact ⟨out, rfl, noisyCircuit_sparesImmune hchecked hnoise hout⟩

end StabCircuit
