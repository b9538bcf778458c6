import StabCircuit.Proofs.Circuit.Flattening
import StabCircuit.Proofs.Noise.Accounting
import StabCircuit.Proofs.Record.References

/-!
# Noise of every moment

A model may have no noise of its own for any operation, but channels that act once a
moment and a strength at which measurements report the wrong result.  Then every
qubit of the system gets these channels once in each moment that has an operation,
and not in others, no channel names any other qubit, and every measurement away from
the immune qubits has the strength as its argument.
-/

namespace StabCircuit

/-- An instruction without noise: no error channel, a measurement without a flip probability, and an
operation on some qubit unless it is an annotation or a step boundary. -/
structure Instruction.IsNoiseless (i : Instruction) : Prop where
  sound : i.IsSound
  noise : i.kind.isNoise = false
  args : i.kind.isMeasurement = true → i.args = []
  qubits : i.kind.isMetadata = false → i.qubits ≠ []

theorem Instruction.isNoiseless_of_isMetadata {i : Instruction} (hi : i.IsSound)
    (h : i.kind.isMetadata = true) : i.IsNoiseless := by
  refine ⟨hi, ?_, ?_, ?_⟩ <;> revert h <;>
    cases i.kind <;> simp [GateKind.isMetadata, GateKind.isNoise, GateKind.isMeasurement]

namespace Circuit

/-- Merging keeps instructions without noise. -/
theorem joinable_isNoiseless : Joinable Instruction.IsNoiseless where
  checked _ h := h.sound.1
  join last next hlast hnext hfuses := by
    refine ⟨Instruction.joinable_isSound.join last next hlast.sound hnext.sound hfuses, hlast.noise,
      hlast.args, fun hkind => ?_⟩
    rw [Instruction.qubits, Instruction.join, List.filterMap_append]
    exact List.append_ne_nil_of_left_ne_nil (hlast.qubits hkind) _

/-! ## Operations of a moment -/

/-- Whether one of the instructions operates on qubits: it is neither an annotation nor an error
channel. -/
def operates (is : List Instruction) : Bool :=
  is.any fun i => !i.kind.isMetadata && !i.kind.isNoise

theorem any_pushReversed (test : GateKind → Bool) (done : List Operation) (i : Instruction) :
    ((instructions (pushReversed done i)).any fun k => test k.kind) =
      ((instructions done).any (fun k => test k.kind) || test i.kind) := by
  obtain ⟨last, rest, rfl, hfuses, hpush⟩ | ⟨-, hpush⟩ := pushReversed_cases done i
  · have hlast : test last.kind = test i.kind := by rw [kind_eq_of_fuses hfuses]
    rw [hpush]
    simp only [instructions, operationInstructions, List.singleton_append, List.any_cons,
      Instruction.kind_join, hlast]
    cases test i.kind <;> simp
  · rw [hpush, instructions, operationInstructions, List.singleton_append, List.any_cons,
      Bool.or_comm]

theorem any_foldl_pushReversed (test : GateKind → Bool) (js : List Instruction)
    (done : List Operation) :
    ((instructions (js.foldl pushReversed done)).any fun k => test k.kind) =
      ((instructions done).any (fun k => test k.kind) || js.any fun j => test j.kind) := by
  induction js generalizing done with
  | nil => simp
  | cons j js ih => rw [List.foldl_cons, ih, any_pushReversed, List.any_cons, Bool.or_assoc]

/-- Merged instructions operate on qubits if one of their parts does. -/
theorem operates_of_merges {js ks : List Instruction} (h : Merges js ks) :
    operates ks = operates js := by
  have hany := any_foldl_pushReversed (fun kind => !kind.isMetadata && !kind.isNoise) js []
  rw [h, ← List.map_reverse, instructions_map_instruction, List.any_reverse] at hany
  exact hany

/-! ## Instructions and moments -/

/-- Every instruction but a step boundary belongs to a moment. -/
theorem exists_mem_spans {i : Instruction} {ms : List (Option Instruction)} (h : some i ∈ ms) :
    ∃ span ∈ spans ms, i ∈ span := by
  induction ms with
  | nil => cases h
  | cons m ms ih =>
    obtain ⟨first, rest, hspans⟩ := List.exists_cons_of_ne_nil (spans_ne_nil ms)
    cases m with
    | none =>
      obtain ⟨span, hspan, hi⟩ := ih (by simpa using h)
      exact ⟨span, List.mem_cons_of_mem _ hspan, hi⟩
    | some j =>
      rw [spans, hspans, List.modifyHead_cons]
      rcases List.mem_cons.1 h with hsame | hlater
      · exact ⟨j :: first, List.mem_cons_self, by simp [Option.some.inj hsame]⟩
      · obtain ⟨span, hspan, hi⟩ := ih hlater
        rw [hspans, List.mem_cons] at hspan
        rcases hspan with rfl | hspan
        · exact ⟨j :: span, List.mem_cons_self, List.mem_cons_of_mem _ hi⟩
        · exact ⟨span, List.mem_cons_of_mem _ hspan, hi⟩

theorem exists_mem_moments {ks : List Instruction} {k : Instruction} (hk : k ∈ ks)
    (htick : k.isTick = false) : ∃ is ∈ moments (ks.map .instruction), k ∈ is := by
  have hmarked : some k ∈ marked (ks.map .instruction) := by
    induction ks with
    | nil => cases hk
    | cons first ks ih =>
      rw [List.map_cons, marked, markedOperation, List.mem_append]
      rcases List.mem_cons.1 hk with rfl | hk
      · simp [htick]
      · exact .inr (ih hk)
  obtain ⟨span, hspan, hmem⟩ := exists_mem_spans hmarked
  refine ⟨span, List.mem_filter.2 ⟨hspan, ?_⟩, hmem⟩
  cases span with
  | nil => cases hmem
  | cons _ _ => rfl

/-- A step boundary at the end adds no moment. -/
theorem moments_tick (c : Circuit) : moments c.tick = moments c := by
  have hmark : marked [.instruction .tick] = [none] := rfl
  rw [moments, tick_eq_append, marked_append, hmark, spans_append_none, full_append]
  exact List.append_nil _

theorem isFlat_tick {c : Circuit} (h : IsFlat c) : IsFlat c.tick := by
  rw [tick_eq_append, IsFlat, List.forall_mem_append]
  exact ⟨h, List.forall_mem_singleton.2 ⟨.tick, rfl⟩⟩

theorem settled_tick {c : Circuit} (h : Settled c) : Settled c.tick := by
  rw [tick, push]
  exact settled_pushReversed (by rwa [List.reverse_reverse]) .tick

theorem endsWithTick_tick (c : Circuit) : c.tick.endsWithTick = true := by
  rw [tick_eq_append]
  simp [endsWithTick, Instruction.isTick, Instruction.tick]

/-- A circuit without blocks is a list of instructions. -/
theorem IsFlat.eq_map {c : Circuit} (h : IsFlat c) : c = (instructions c).map .instruction := by
  induction c with
  | nil => rfl
  | cons op c ih =>
    obtain ⟨⟨i, rfl⟩, hrest⟩ := List.forall_mem_cons.1 h
    rw [instructions, operationInstructions, List.singleton_append, List.map_cons, ← ih hrest]

theorem IsFlat.unrolled_eq {c : Circuit} (h : IsFlat c) :
    unrolled (fun i => [i]) c = instructions c := by
  obtain ⟨is, rfl⟩ : ∃ is : List Instruction, c = is.map .instruction := ⟨_, h.eq_map⟩
  rw [unrolled_map_instruction, instructions_map_instruction, List.flatMap_singleton']

end Circuit

/-- The model has no noise for operations, but a strength at which measurements report the wrong
result. -/
structure NoiseModel.OnlyFlips (m : NoiseModel) (flip : Scalar) : Prop where
  idle : (0 : Scalar).numLt m.idleDepolarization = false
  waiting : (0 : Scalar).numLt m.waitingDepolarization = false
  channels : ∀ piece rule, m.ruleFor piece = .rule rule → rule.after.entries = []
  measured : ∀ piece : Instruction, piece.kind.isMeasurement = true →
    piece.isClassicallyControlled = false →
    ∃ rule, m.ruleFor piece = .rule rule ∧ rule.flipResult = flip

/-- The argument of a measurement at a strength, none unless it is positive. -/
def flipArgs (flip : Scalar) : List Scalar := if (0 : Scalar).numLt flip then [flip] else []

namespace NoiseContext

open Circuit

variable {ctx : NoiseContext} {flip : Scalar}

/-! ## What moments call for -/

theorem entriesFor_of_onlyFlips (hmodel : ctx.model.OnlyFlips flip) (g : Gate) (p : Scalar)
    (piece : Instruction) : ctx.entriesFor g p piece = 0 := by
  unfold entriesFor
  split
  · rfl
  · cases hrule : ctx.model.ruleFor piece with
    | rule rule => simp [hmodel.channels piece rule hrule, entriesNaming]
    | missing => rfl
    | exempt => rfl

theorem due_of_onlyFlips (hmodel : ctx.model.OnlyFlips flip) (is : List Instruction) (g : Gate)
    (p : Scalar) (q : Nat) :
    ctx.due (ctx.entriesFor g p) is g p q = if ctx.isNoisy q then ctx.tickEntries g p else 0 := by
  simp [due, entriesFor_of_onlyFlips hmodel, isDepolarization, hmodel.idle, hmodel.waiting]

theorem requests_of_annotations {is : List Instruction} (h : hasOperation is = false) :
    ctx.requests is = [] := by
  have hpieces : operationPieces is = [] := by
    rw [operationPieces, List.flatMap_eq_nil_iff]
    intro i hi
    have hkind : i.kind.isMetadata = true := by
      rw [hasOperation, List.any_eq_false] at h
      simpa using h i hi
    rw [if_pos hkind]
  simp [requests, hpieces, h]

/-- Every channel of every moment names the qubits of the system, and only where the moment has an
operation. -/
theorem ShowsRequests.count_of_onlyFlips (hmodel : ctx.model.OnlyFlips flip)
    {is ks : List Instruction} (h : ctx.ShowsRequests is ks) {g : Gate}
    (hg : g.kind.isNoise = true) (p : Scalar) (q : Nat) :
    (named Instruction.qubits g p ks).count q =
      if hasOperation is && ctx.isNoisy q then ctx.tickEntries g p else 0 := by
  cases his : hasOperation is with
  | true => rw [h.count_qubits his hg p q, due_of_onlyFlips hmodel, Bool.true_and]
  | false =>
    have hperm := h hg (reads_qubits g) (splits_qubits g) p
    rw [requests_of_annotations his] at hperm
    rw [hperm.count_eq]
    rfl

/-! ## What moments measure -/

/-- A copied piece, with the argument that a strength gives a measurement without one and without
immune qubits. -/
structure Flips (ctx : NoiseContext) (flip : Scalar) (p j : Instruction) : Prop where
  copied : Copied p j
  args : p.kind.isMeasurement = true → p.isClassicallyControlled = false → p.args = [] →
    (∀ q ∈ p.qubits, ctx.immune.contains q = false) → j.args = flipArgs flip

theorem args_of_applyRule {rule : NoiseRule} {m : Moment} {p : Instruction}
    {result : Moment × Instruction} (hp : p.args = []) (h : applyRule rule m p = .ok result) :
    result.2.args = flipArgs rule.flipResult := by
  obtain ⟨collected, -, h⟩ := bind_eq_ok.1 h
  unfold flipArgs
  split at h
  · next hpositive =>
    split at h
    · cases h
      rw [if_pos hpositive]
    · cases h
  · next hzero =>
    cases h
    rw [if_neg hzero]
    exact hp

theorem copiesBy_flips (hvalid : ctx.model.IsValid) (hmodel : ctx.model.OnlyFlips flip) :
    ctx.CopiesBy CollectsChannels (ctx.Flips flip) where
  piece := by
    intro m p result hm h
    obtain ⟨hcollects, hcopied⟩ := copied_of_piece hvalid hm h
    refine ⟨hcollects, hcopied, fun hkind hplain hargs hclean => ?_⟩
    obtain ⟨rule, hrule, rfl⟩ := hmodel.measured p hkind hplain
    obtain ⟨observed, -, h⟩ := bind_eq_ok.1 h
    have hexposed : ¬ (p.qubits.any fun q => ctx.immune.contains q) = true := by simpa using hclean
    rw [if_neg hexposed, hrule] at h
    exact args_of_applyRule hargs h
  active := id

/-- An instruction without noise whose measurements keep away from the immune qubits. -/
structure IsExposed (ctx : NoiseContext) (i : Instruction) : Prop where
  noiseless : i.IsNoiseless
  measured : i.kind.isMeasurement = true → ∀ q ∈ i.qubits, ctx.immune.contains q = false

theorem piece_of_isExposed {i p : Instruction} (hi : ctx.IsExposed i)
    (hkind : i.kind.isMeasurement = true) (hp : p ∈ piecesOf i) :
    p.isClassicallyControlled = false ∧ p.args = [] ∧
      ∀ q ∈ p.qubits, ctx.immune.contains q = false := by
  have hmetadata : i.kind.isMetadata = false := by
    revert hkind
    cases i.kind <;> simp [GateKind.isMeasurement, GateKind.isMetadata]
  obtain ⟨group, hgroup, rfl⟩ := List.mem_map.1 hp
  have hsound := Instruction.isSound_pieceOf hi.noiseless.sound hmetadata hgroup
  have hpiece := Instruction.isPiece_of_mem_targetGroups hi.noiseless.sound.1 hmetadata hgroup
  refine ⟨?_, hi.noiseless.args hkind, fun q hq => hi.measured hkind q ?_⟩
  · rw [Instruction.isClassicallyControlled, Bool.and_eq_false_iff]
    right
    rw [List.any_eq_false]
    intro t ht
    rw [Bool.not_eq_true]
    exact Instruction.isClassical_of_isMeasurement hsound hkind t ht
  · have hqubits : (i.pieceOf group).qubits = group.filterMap Target.qubit? := by
      rw [← Instruction.flatMap_qubit?_targetGroups, hpiece.targetGroups, List.flatMap_singleton]
    rw [← Instruction.flatMap_qubit?_targetGroups]
    exact List.mem_flatMap.2 ⟨group, hgroup, hqubits ▸ hq⟩

theorem kind_of_flips {p j : Instruction} (h : ctx.Flips flip p j) : j.kind = p.kind := by
  cases h.copied <;> rfl

/-- Copied measurements have the argument that the strength gives. -/
theorem args_of_copies {is : List Instruction} {copies : List (List Instruction)}
    (his : ∀ i ∈ is, ctx.IsExposed i) (h : List.Forall₂ (CopiedBy (ctx.Flips flip)) is copies) :
    ∀ j ∈ copies.flatten, j.kind.isMeasurement = true → j.args = flipArgs flip := by
  have hpieces : ∀ {ps js : List Instruction}, List.Forall₂ (ctx.Flips flip) ps js →
      (∀ p ∈ ps, p.kind.isMeasurement = true → p.isClassicallyControlled = false ∧ p.args = [] ∧
        ∀ q ∈ p.qubits, ctx.immune.contains q = false) →
      ∀ j ∈ js, j.kind.isMeasurement = true → j.args = flipArgs flip := by
    intro ps js hflips hps
    induction hflips with
    | nil => simp
    | cons hone _ ih =>
      rw [List.forall_mem_cons] at hps ⊢
      refine ⟨fun hkind => ?_, ih hps.2⟩
      rw [kind_of_flips hone] at hkind
      obtain ⟨hplain, hargs, hclean⟩ := hps.1 hkind
      exact hone.args hkind hplain hargs hclean
  induction h with
  | nil => simp
  | @cons i js _ _ hcopied _ ih =>
    rw [List.forall_mem_cons] at his
    rw [List.flatten_cons, List.forall_mem_append]
    refine ⟨?_, ih his.2⟩
    cases hcopied with
    | whole hmetadata =>
      refine List.forall_mem_singleton.2 fun hkind => ?_
      revert hmetadata hkind
      cases i.kind <;> simp [GateKind.isMetadata, GateKind.isMeasurement]
    | pieces _ hjs =>
      refine hpieces hjs fun p hp hkind => piece_of_isExposed his.1 ?_ hp
      obtain ⟨group, -, rfl⟩ := List.mem_map.1 hp
      exact hkind

theorem operates_append (is js : List Instruction) :
    operates (is ++ js) = (operates is || operates js) := List.any_append

/-- Copies operate on qubits if what they are copies of does. -/
theorem operates_copies {is : List Instruction} {copies : List (List Instruction)}
    (his : ∀ i ∈ is, i.IsNoiseless) (h : List.Forall₂ CopiedAs is copies) :
    operates copies.flatten = hasOperation is := by
  induction h with
  | nil => rfl
  | @cons i js is _ hcopied _ ih =>
    rw [List.forall_mem_cons] at his
    have hcons : hasOperation (i :: is) = (!i.kind.isMetadata || hasOperation is) := rfl
    rw [List.flatten_cons, operates_append, ih his.2, hcons]
    congr 1
    have hkinds := isChecked_of_copiedAs his.1.sound.1 hcopied
    cases hcopied with
    | whole hmetadata => simp [operates, hmetadata]
    | pieces hmetadata hjs =>
      -- An operation on some qubit has a target group, so a piece of it is copied.
      have hsome : js ≠ [] := by
        rintro rfl
        have hnone : i.targetGroups = [] :=
          List.map_eq_nil_iff.1 (List.forall₂_nil_right_iff.1 hjs)
        apply his.1.qubits hmetadata
        rw [← Instruction.flatMap_qubit?_targetGroups, hnone]
        rfl
      obtain ⟨j, rest, rfl⟩ := List.exists_cons_of_ne_nil hsome
      have hkind := (hkinds j (by simp)).2
      simp [operates, hkind, hmetadata, his.1.noise]

/-! ## The run -/

/-- A checked instruction, with a positive strength if it is an error channel and with given
arguments if it is a measurement. -/
def HasArgs (args : List Scalar) (i : Instruction) : Prop :=
  HasStrength i ∧ (i.kind.isMeasurement = true → i.args = args)

theorem joinable_hasArgs (args : List Scalar) : Joinable (HasArgs args) where
  checked _ h := h.1.1
  join last next hlast hnext hfuses :=
    ⟨joinable_hasStrength.join last next hlast.1 hnext.1 hfuses, hlast.2⟩

/-- What is written for a moment, merged, when the model has only noise of every moment and flip
probabilities. -/
structure HasEveryMoment (ctx : NoiseContext) (flip : Scalar) (is ks : List Instruction) :
    Prop where
  shows : ctx.ShowsRequests is ks
  operates : operates ks = hasOperation is
  args : ∀ k ∈ ks, HasArgs (flipArgs flip) k

theorem Application.IsSound.hasArgs {a : Application} (h : a.IsSound) (args : List Scalar) :
    HasArgs args a.written := by
  refine ⟨h.hasStrength, fun hkind => ?_⟩
  have hnoise := h.kind
  revert hkind hnoise
  cases a.written.kind <;> simp [GateKind.isMeasurement, GateKind.isNoise]

theorem operates_written {as : List Application} (has : ∀ a ∈ as, a.IsSound) :
    operates (as.map Application.written) = false := by
  rw [Circuit.operates, List.any_eq_false]
  intro j hj
  obtain ⟨a, ha, rfl⟩ := List.mem_map.1 hj
  simp [(has a ha).kind]

theorem writesMoments_hasEveryMoment (hvalid : ctx.model.IsValid)
    (hmodel : ctx.model.OnlyFlips flip) :
    ctx.WritesMoments ctx.IsExposed (ctx.HasEveryMoment flip) := by
  intro is done out his h
  have hexposed : ∀ i ∈ is, ctx.IsExposed i := fun i hi => (his i hi).1
  have hquiet : ∀ i ∈ is, i.IsNoiseless := fun i hi => (hexposed i hi).noiseless
  obtain ⟨copied, as, hcopied, ⟨hsound, hout⟩, hshown⟩ :=
    writes_of_copyMoment hvalid (fun i hi => (hquiet i hi).noise) h
  obtain ⟨copies, hcopies, hfold, -⟩ :=
    (copiesBy_flips hvalid hmodel).copyMoment collectsChannels_empty hcopied
  have hcopiedAs : List.Forall₂ CopiedAs is copies :=
    hcopies.imp fun _ _ h => h.copiedAs fun _ _ hflips => hflips.copied
  have hchecked := isChecked_of_copies
    (fun i hi => ⟨(hquiet i hi).sound.1, (hquiet i hi).noise⟩) hcopiedAs
  refine ⟨copies.flatten ++ as.map Application.written, ?_, ?_, fun ks hmerges => ⟨?_, ?_, ?_⟩⟩
  · rw [List.forall_mem_append, List.forall_mem_map]
    exact ⟨isTick_of_copies (fun i hi => (his i hi).2) hcopiedAs, fun a ha => (hsound a ha).isTick⟩
  · rw [List.foldl_append, ← hfold, hout]
  · exact showsRequests_of_merges hchecked hsound hshown hmerges
  · rw [operates_of_merges hmerges, operates_append, operates_copies hquiet hcopiedAs,
      operates_written hsound, Bool.or_false]
  · have hall : ∀ j ∈ copies.flatten ++ as.map Application.written, HasArgs (flipArgs flip) j := by
      rw [List.forall_mem_append, List.forall_mem_map]
      refine ⟨fun j hj => ⟨⟨(hchecked j hj).1, ?_⟩, args_of_copies hexposed hcopies j hj⟩,
        fun a ha => (hsound a ha).hasArgs _⟩
      simp [(hchecked j hj).2]
    have hmerged := everywhere_foldl_pushReversed (joinable_hasArgs _) (everywhere_nil _) hall
    rw [hmerges, everywhere_reverse] at hmerged
    rwa [Everywhere, instructions_map_instruction] at hmerged

/-- From a circuit without blocks, what is written comes about by appending instructions. -/
theorem inject_induction {I : List Operation → Prop} (hnil : I [])
    (hpush : ∀ done i, I done → I (pushReversed done i)) (hvalid : ctx.model.IsValid)
    {c out : Circuit} (hc : IsFlat c) (h : ctx.inject c = .ok out) : I out.reverse := by
  have hpushes : ∀ (js : List Instruction) {done : List Operation}, I done →
      I (js.foldl pushReversed done) := by
    intro js
    induction js with
    | nil => exact id
    | cons j js ih => exact fun hdone => ih (hpush _ j hdone)
  have hflush : ∀ {p : Progress} {written : List Operation}, I p.done →
      ctx.flush p = .ok written → I written := by
    intro p written hp hwritten
    obtain ⟨copies, channels, -, -, rfl⟩ := copied_of_moment hvalid hwritten
    exact hpushes _ hp
  have hsteps : ∀ {p last : Progress} {ops : List Operation}, IsFlat ops → I p.done →
      ctx.stepAll p ops = .ok last → I last.done := by
    intro p last ops hops hp hrun
    induction ops generalizing p with
    | nil =>
      cases hrun
      exact hp
    | cons op ops ih =>
      obtain ⟨⟨i, rfl⟩, hrest⟩ := List.forall_mem_cons.1 hops
      obtain ⟨mid, hmid, hrun⟩ := bind_eq_ok.1 hrun
      refine ih hrest ?_ hrun
      rw [NoiseContext.stepOperation] at hmid
      split at hmid
      · obtain ⟨written, hwritten, rfl⟩ := map_eq_ok.1 hmid
        exact hpush _ .tick (hflush hp hwritten)
      · cases hmid
        exact hp
  obtain ⟨p, hp, h⟩ := bind_eq_ok.1 h
  obtain ⟨written, hwritten, h⟩ := bind_eq_ok.1 h
  cases h
  rw [List.reverse_reverse]
  exact hflush (hsteps hc hnil hp) hwritten

/-- From a circuit without blocks, a settled one without blocks is written. -/
theorem settled_inject (hvalid : ctx.model.IsValid) {c out : Circuit} (hc : IsFlat c)
    (h : ctx.inject c = .ok out) : IsFlat out ∧ Settled out := by
  have hall := inject_induction (I := fun done => IsFlat done ∧ Settled done.reverse)
    ⟨fun op hop => (by cases hop), trivial⟩
    (fun _ i hdone => ⟨isFlat_pushReversed hdone.1 i, settled_pushReversed hdone.2 i⟩) hvalid hc h
  rw [List.reverse_reverse] at hall
  exact ⟨fun op hop => hall.1 op (List.mem_reverse.2 hop), hall.2⟩

/-- Instructions in whose moments the noise of every moment acts on the system, once where there is
an operation; no channel names another qubit, and measurements have given arguments. -/
structure EveryMoment (ctx : NoiseContext) (args : List Scalar) (ks : List Instruction) : Prop where
  moments : ∀ is ∈ moments (ks.map .instruction), ∀ g p q, g.kind.isNoise = true →
    (named Instruction.qubits g p is).count q =
      if operates is && ctx.isNoisy q then ctx.tickEntries g p else 0
  channels : ∀ k ∈ ks, k.kind.isNoise = true →
    (∃ p, k.args = [p] ∧ (0 : Scalar).numLt p = true) ∧ ∀ q ∈ k.qubits, ctx.isNoisy q = true
  measured : ∀ k ∈ ks, k.kind.isMeasurement = true → k.args = args

theorem isTick_of_isMetadata_eq_false {i : Instruction} (h : i.kind.isMetadata = false) :
    i.isTick = false := by
  rw [Instruction.isTick, beq_eq_false_iff_ne]
  intro hname
  rw [Instruction.kind_of_gate? (Instruction.gate?_of_name hname)] at h
  cases h

theorem everyMoment_of_moments (hmodel : ctx.model.OnlyFlips flip) {ks : List Instruction}
    (h : ∀ out ∈ moments (ks.map .instruction), ∃ is, ctx.HasEveryMoment flip is out) :
    ctx.EveryMoment (flipArgs flip) ks := by
  have hcount : ∀ is ∈ moments (ks.map .instruction), ∀ g p q, g.kind.isNoise = true →
      (named Instruction.qubits g p is).count q =
        if operates is && ctx.isNoisy q then ctx.tickEntries g p else 0 := by
    intro out hout g p q hg
    obtain ⟨is, his⟩ := h out hout
    rw [ShowsRequests.count_of_onlyFlips hmodel his.shows hg, his.operates]
  have hargs : ∀ k ∈ ks, k.kind.isMetadata = false →
      ∃ is ∈ moments (ks.map .instruction), k ∈ is ∧ HasArgs (flipArgs flip) k := by
    intro k hk hkind
    obtain ⟨out, hout, hmem⟩ := exists_mem_moments hk (isTick_of_isMetadata_eq_false hkind)
    obtain ⟨is, his⟩ := h out hout
    exact ⟨out, hout, hmem, his.args k hmem⟩
  refine ⟨hcount, fun k hk hnoise => ?_, fun k hk hkind => ?_⟩
  · have hmetadata : k.kind.isMetadata = false := by
      revert hnoise
      cases k.kind <;> simp [GateKind.isNoise, GateKind.isMetadata]
    obtain ⟨is, his, hmem, ⟨⟨hchecked, hstrength⟩, -⟩⟩ := hargs k hk hmetadata
    obtain ⟨p, hp, hpositive⟩ := hstrength hnoise
    refine ⟨⟨p, hp, hpositive⟩, fun q hq => ?_⟩
    -- The moment of the channel counts its qubits, and counts none that has no noise.
    obtain ⟨g, hname, -, hkind, -⟩ := hchecked.exists_gate
    have hnamed : q ∈ named Instruction.qubits g p is :=
      List.mem_flatMap.2 ⟨k, hmem, by rwa [if_pos ⟨hname, hp⟩]⟩
    have hpos := List.count_pos_iff.2 hnamed
    rw [hcount is his g p q (hkind ▸ hnoise)] at hpos
    by_contra hquiet
    simp [hquiet] at hpos
  · have hmetadata : k.kind.isMetadata = false := by
      revert hkind
      cases k.kind <;> simp [GateKind.isMeasurement, GateKind.isMetadata]
    obtain ⟨-, -, -, -, hmeasured⟩ := hargs k hk hmetadata
    exact hmeasured hkind

end NoiseContext

open Circuit

/-- Injection into a circuit without blocks and noise gives instructions with noise of every moment,
also when they are made to end with a step boundary. -/
theorem everyMoment_noisyCircuit {c out : Circuit} {model : NoiseModel}
    {immune system : OrderedSet Nat} {flip : Scalar} (hmodel : model.OnlyFlips flip)
    (hsettled : Settled c) (hflat : IsFlat c)
    (hc : Everywhere (NoiseContext.IsExposed ⟨model, immune, system⟩) c)
    (h : noisyCircuit c model immune (some system) = .ok out) :
    Settled (if out.endsWithTick then out else out.tick) ∧
      (if out.endsWithTick then out else out.tick).endsWithTick = true ∧
      ∃ ks : List Instruction,
        (if out.endsWithTick then out else out.tick) = ks.map .instruction ∧
          NoiseContext.EveryMoment ⟨model, immune, system⟩ (flipArgs flip) ks := by
  obtain ⟨_, hvalidate, hinject⟩ := bind_eq_ok.1 h
  have hvalid := NoiseModel.isValid_of_validate (lift_eq_ok.1 hvalidate)
  have hmoments : NoiseContext.WritesMoments ⟨model, immune, system⟩ _ _ :=
    NoiseContext.writesMoments_hasEveryMoment hvalid hmodel
  obtain ⟨outs, houts, hout⟩ := NoiseContext.moments_inject hmoments hc hsettled hinject
  obtain ⟨hflatOut, hsettledOut⟩ := NoiseContext.settled_inject hvalid hflat hinject
  have hclosed : ∃ closed : Circuit, (if out.endsWithTick then out else out.tick) = closed ∧
      IsFlat closed ∧ Settled closed ∧ closed.endsWithTick = true ∧
        moments closed = moments out := by
    split
    · next hend => exact ⟨out, rfl, hflatOut, hsettledOut, hend, rfl⟩
    · exact ⟨out.tick, rfl, isFlat_tick hflatOut, settled_tick hsettledOut, endsWithTick_tick out,
        moments_tick out⟩
  obtain ⟨closed, hsame, hclosedFlat, hclosedSettled, hend, hspans⟩ := hclosed
  rw [hsame]
  refine ⟨hclosedSettled, hend, _, hclosedFlat.eq_map,
    NoiseContext.everyMoment_of_moments hmodel fun ks hks => ?_⟩
  rw [← hclosedFlat.eq_map, hspans, hout] at hks
  have hall : List.Forall₂ (fun ks _ =>
      (∃ is, NoiseContext.HasEveryMoment ⟨model, immune, system⟩ flip is ks) ∧ True)
      outs (moments c) :=
    houts.flip.imp fun _ is his => ⟨⟨is, his⟩, trivial⟩
  exact ((List.forall₂_and_left _ _).1 hall).1 ks (List.mem_of_mem_filter hks)

end StabCircuit
