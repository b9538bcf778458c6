import StabCircuit.Proofs.Circuit.Pieces
import StabCircuit.Proofs.Noise.Channels

/-!
# What noise injection writes

A moment with noise is its instructions, annotations as they are and all others
piece by piece, each measured piece possibly with a flip probability, followed by
error channels over plain qubits.  A reading that takes no notice of channels, flip
probabilities and step boundaries shows the same before and after injection.
-/

namespace StabCircuit

namespace NoiseContext

/-! ## Copies and channels -/

/-- A copied piece: the piece itself, or a measurement with a flip probability. -/
inductive Copied (p : Instruction) : Instruction → Prop
  | same : Copied p p
  | flipped (x : Scalar) (h : p.kind.isMeasurement = true) : Copied p { p with args := [x] }

/-- The copies of an instruction: an annotation as it is, others piece by piece. -/
inductive CopiedAs (i : Instruction) : List Instruction → Prop
  | whole (h : i.kind.isMetadata = true) : CopiedAs i [i]
  | pieces {js : List Instruction} (h : i.kind.isMetadata = false)
      (hjs : List.Forall₂ Copied (piecesOf i) js) : CopiedAs i js

/-- An error channel over plain qubits. -/
structure IsChannel (j : Instruction) : Prop where
  plain : j.IsPlain
  noise : j.kind.isNoise = true

/-- The operations come about by appending instructions with a property. -/
def Appends (p : Instruction → Prop) (done out : List Operation) : Prop :=
  ∃ js : List Instruction, (∀ j ∈ js, p j) ∧ out = js.foldl Circuit.pushReversed done

theorem Appends.refl (p : Instruction → Prop) (done : List Operation) : Appends p done done :=
  ⟨[], by simp, rfl⟩

theorem Appends.trans {p : Instruction → Prop} {done mid out : List Operation}
    (h : Appends p done mid) (h' : Appends p mid out) : Appends p done out := by
  obtain ⟨js, hjs, rfl⟩ := h
  obtain ⟨ks, hks, rfl⟩ := h'
  exact ⟨js ++ ks, List.forall_mem_append.2 ⟨hjs, hks⟩, List.foldl_append.symm⟩

theorem appends_of_appendChannel {done out : List Operation} {channel : String}
    {qubits : List Nat} {p : Scalar} (hname : IsChannelName channel)
    (h : appendChannel done channel qubits p = .ok out) : Appends IsChannel done out := by
  obtain ⟨j, hj, rfl⟩ := map_eq_ok.1 h
  have hmake := lift_eq_ok.1 hj
  obtain ⟨g, hg, hfault, rfl⟩ := Instruction.isChecked_of_make hmake
  obtain ⟨g', hg', hnoise⟩ := hname
  obtain rfl : g = g' := by
    rw [hg] at hg'
    exact Except.ok.inj hg'
  have hsilent : g.isSilent = true := by
    revert hnoise
    cases g <;> simp [Gate.kind, GateKind.isNoise] <;> rfl
  refine ⟨[_], List.forall_mem_singleton.2 ⟨⟨g, qubits, rfl, rfl, hfault, hsilent⟩, ?_⟩, rfl⟩
  rw [Instruction.kind_of_gate? (Instruction.gate?_of_name rfl)]
  exact hnoise

/-- All channels collected in a moment are error channels. -/
def CollectsChannels (m : Moment) : Prop := ∀ entry ∈ m.after.entries, IsChannelName entry.1.name

theorem appends_of_appendCollected {entries : List (ChannelKey × List Nat)}
    {done out : List Operation} (hentries : ∀ entry ∈ entries, IsChannelName entry.1.name)
    (h : appendCollected done entries = .ok out) : Appends IsChannel done out := by
  induction entries generalizing done with
  | nil =>
    cases h
    exact .refl _ _
  | cons entry entries ih =>
    obtain ⟨mid, hmid, hrest⟩ := bind_eq_ok.1 h
    rw [List.forall_mem_cons] at hentries
    exact (appends_of_appendChannel hentries.1 hmid).trans (ih hentries.2 hrest)

theorem appends_of_appendIdle {done out : List Operation} {p : Scalar} {qubits : List Nat}
    (h : appendIdle done p qubits = .ok out) : Appends IsChannel done out := by
  unfold appendIdle at h
  split at h
  · exact appends_of_appendChannel (isChannelName_name rfl) h
  · cases h
    exact .refl _ _

theorem appends_of_appendTickNoise {qubits : List Nat} {entries : List (String × Scalar)}
    {done out : List Operation} (hentries : ∀ entry ∈ entries, IsChannelName entry.1)
    (h : appendTickNoise qubits done entries = .ok out) : Appends IsChannel done out := by
  induction entries generalizing done with
  | nil =>
    cases h
    exact .refl _ _
  | cons entry entries ih =>
    rw [List.forall_mem_cons] at hentries
    simp only [appendTickNoise] at h
    split at h
    · obtain ⟨_, -, h⟩ := bind_eq_ok.1 h
      obtain ⟨mid, hmid, hrest⟩ := bind_eq_ok.1 h
      exact (appends_of_appendChannel hentries.1 hmid).trans (ih hentries.2 hrest)
    · exact ih hentries.2 h

theorem appends_of_appendBackground {ctx : NoiseContext} (hvalid : ctx.model.IsValid) {m : Moment}
    {done out : List Operation} (h : ctx.appendBackground m done = .ok out) :
    Appends IsChannel done out := by
  obtain ⟨idle, hidle, h⟩ := bind_eq_ok.1 h
  obtain ⟨waiting, hwaiting, h⟩ := bind_eq_ok.1 h
  refine (appends_of_appendIdle hidle).trans ((appends_of_appendIdle hwaiting).trans ?_)
  split at h
  · cases h
    exact .refl _ _
  · next rule hrule =>
    dsimp only at h
    split at h
    · cases h
      exact .refl _ _
    · exact appends_of_appendTickNoise
        (hvalid rule (NoiseModel.mem_rules_of_tickNoise hrule)) h

/-! ## Pieces -/

theorem after_of_claim {allowReuse : Bool} {gate : String} {m out : Moment} {qubits : List Nat}
    (h : m.claim allowReuse gate qubits = .ok out) : out.after = m.after := by
  induction qubits generalizing m with
  | nil =>
    cases h
    rfl
  | cons q qubits ih =>
    unfold Moment.claim at h
    split at h
    · cases h
    · exact (ih h).trans rfl

theorem after_of_observe {ctx : NoiseContext} {m out : Moment} {p : Instruction}
    (h : ctx.observe m p = .ok out) : out.after = m.after := by
  unfold observe at h
  dsimp only at h
  split at h
  · cases h
    rfl
  · have hlast : ∀ claimed : Moment, (if p.kind.isCollapsing = true then
        pure { claimed with collapsed := p.qubits ++ claimed.collapsed }
        else pure claimed : Except CompileError Moment) = .ok out → out.after = claimed.after := by
      intro claimed hout
      split at hout <;> cases hout <;> rfl
    split at h
    · obtain ⟨claimed, hclaimed, h⟩ := bind_eq_ok.1 h
      cases hclaimed
      exact (hlast _ h).trans rfl
    · obtain ⟨claimed, hclaimed, h⟩ := bind_eq_ok.1 h
      exact (hlast claimed h).trans ((after_of_claim hclaimed).trans rfl)

theorem collectsChannels_of_collect {m out : Moment} {p : Instruction}
    {entries : List (String × Scalar)} (hentries : ∀ entry ∈ entries, IsChannelName entry.1)
    (hm : CollectsChannels m) (h : collect m p entries = .ok out) : CollectsChannels out := by
  induction entries generalizing m with
  | nil =>
    cases h
    exact hm
  | cons entry entries ih =>
    rw [List.forall_mem_cons] at hentries
    simp only [collect] at h
    split at h
    · obtain ⟨_, -, h⟩ := bind_eq_ok.1 h
      refine ih hentries.2 (fun e he => ?_) h
      rcases OrderedMap.key_of_mem_alterEntries he with hkey | ⟨e', he', hkey⟩
      · rw [hkey]
        exact hentries.1
      · rw [hkey]
        exact hm e' he'
    · exact ih hentries.2 hm h

theorem copied_of_applyRule {rule : NoiseRule} (hrule : rule.IsValid) {m : Moment}
    {p : Instruction} {result : Moment × Instruction} (hm : CollectsChannels m)
    (h : applyRule rule m p = .ok result) : CollectsChannels result.1 ∧ Copied p result.2 := by
  obtain ⟨collected, hcollected, h⟩ := bind_eq_ok.1 h
  have hcollects := collectsChannels_of_collect hrule hm hcollected
  split at h
  · split at h
    · next hmeasurement =>
      cases h
      exact ⟨hcollects, .flipped _ hmeasurement⟩
    · cases h
  · cases h
    exact ⟨hcollects, .same⟩

/-- Copying a piece changes at most the arguments of a measurement. -/
theorem copied_of_piece {ctx : NoiseContext} (hvalid : ctx.model.IsValid) {m : Moment}
    {p : Instruction} {result : Moment × Instruction} (hm : CollectsChannels m)
    (h : ctx.piece m p = .ok result) : CollectsChannels result.1 ∧ Copied p result.2 := by
  obtain ⟨observed, hobserved, h⟩ := bind_eq_ok.1 h
  have hcollects : CollectsChannels observed := by
    rw [CollectsChannels, after_of_observe hobserved]
    exact hm
  split at h
  · cases h
    exact ⟨hcollects, .same⟩
  · split at h
    · next rule hrule =>
      exact copied_of_applyRule (hvalid rule (NoiseModel.mem_rules_of_ruleFor hrule)) hcollects h
    · split at h
      · cases h
      · cases h
        exact ⟨hcollects, .same⟩
    · cases h
      exact ⟨hcollects, .same⟩

/-! ## Moments -/

/-- The copies of an instruction: an annotation as it is, others piece by piece, each piece in a
relation to its copy. -/
inductive CopiedBy (R : Instruction → Instruction → Prop) (i : Instruction) :
    List Instruction → Prop
  | whole (h : i.kind.isMetadata = true) : CopiedBy R i [i]
  | pieces {js : List Instruction} (h : i.kind.isMetadata = false)
      (hjs : List.Forall₂ R (piecesOf i) js) : CopiedBy R i js

/-- Copying a piece keeps a property of the moment, and the piece is in a relation to its copy. -/
structure CopiesBy (ctx : NoiseContext) (C : Moment → Prop)
    (R : Instruction → Instruction → Prop) : Prop where
  piece : ∀ {m p result}, C m → ctx.piece m p = .ok result → C result.1 ∧ R p result.2
  active : ∀ {m : Moment}, C m → C { m with active := true }

section Copies

variable {ctx : NoiseContext} {C : Moment → Prop} {R : Instruction → Instruction → Prop}

theorem CopiesBy.copyPieces (hR : ctx.CopiesBy C R) {ps : List Instruction} {m : Moment}
    {done : List Operation} {result : Moment × List Operation} (hm : C m)
    (h : ctx.copyPieces m done ps = .ok result) :
    ∃ js, List.Forall₂ R ps js ∧ result.2 = js.foldl Circuit.pushReversed done ∧ C result.1 := by
  induction ps generalizing m done with
  | nil =>
    cases h
    exact ⟨[], .nil, rfl, hm⟩
  | cons p ps ih =>
    obtain ⟨copied, hcopied, h⟩ := bind_eq_ok.1 h
    obtain ⟨hkept, hp⟩ := hR.piece hm hcopied
    obtain ⟨js, hjs, hresult, hlast⟩ := ih hkept h
    exact ⟨copied.2 :: js, .cons hp hjs, hresult, hlast⟩

/-- What is copied out of a moment is its instructions, piece by piece. -/
theorem CopiesBy.copyMoment (hR : ctx.CopiesBy C R) {is : List Instruction} {m : Moment}
    {done : List Operation} {result : Moment × List Operation} (hm : C m)
    (h : ctx.copyMoment m done is = .ok result) :
    ∃ copies, List.Forall₂ (CopiedBy R) is copies ∧
      result.2 = copies.flatten.foldl Circuit.pushReversed done ∧ C result.1 := by
  induction is generalizing m done with
  | nil =>
    cases h
    exact ⟨[], .nil, rfl, hm⟩
  | cons i is ih =>
    unfold NoiseContext.copyMoment at h
    split at h
    · next hmetadata =>
      obtain ⟨copies, hcopies, hresult, hlast⟩ := ih hm h
      exact ⟨[i] :: copies, .cons (.whole hmetadata) hcopies, hresult, hlast⟩
    · next hmetadata =>
      obtain ⟨copied, hcopied, h⟩ := bind_eq_ok.1 h
      obtain ⟨js, hjs, hdone, hkept⟩ := hR.copyPieces (hR.active hm) hcopied
      obtain ⟨copies, hcopies, hresult, hlast⟩ := ih hkept h
      refine ⟨js :: copies, .cons (.pieces (by simpa using hmetadata) hjs) hcopies, ?_, hlast⟩
      rw [hresult, hdone, List.flatten_cons, List.foldl_append]

end Copies

theorem copiesBy_copied {ctx : NoiseContext} (hvalid : ctx.model.IsValid) :
    ctx.CopiesBy CollectsChannels Copied where
  piece := copied_of_piece hvalid
  active := id

theorem collectsChannels_empty : CollectsChannels {} := by
  simp [CollectsChannels, OrderedMap.empty]

theorem CopiedBy.copiedAs {R : Instruction → Instruction → Prop} {i : Instruction}
    {js : List Instruction} (h : CopiedBy R i js) (hR : ∀ p j, R p j → Copied p j) :
    CopiedAs i js := by
  cases h with
  | whole hkind => exact .whole hkind
  | pieces hkind hjs => exact .pieces hkind (hjs.imp hR)

theorem copied_of_copyMoment {ctx : NoiseContext} (hvalid : ctx.model.IsValid)
    {is : List Instruction} {m : Moment} {done : List Operation}
    {result : Moment × List Operation} (hm : CollectsChannels m)
    (h : ctx.copyMoment m done is = .ok result) :
    ∃ copies, List.Forall₂ CopiedAs is copies ∧
      result.2 = copies.flatten.foldl Circuit.pushReversed done ∧ CollectsChannels result.1 := by
  obtain ⟨copies, hcopies, hresult⟩ := (copiesBy_copied hvalid).copyMoment hm h
  exact ⟨copies, hcopies.imp fun _ _ hcopied => hcopied.copiedAs fun _ _ h => h, hresult⟩

/-- A moment with noise is its instructions, copied, followed by error channels. -/
theorem copied_of_moment {ctx : NoiseContext} (hvalid : ctx.model.IsValid)
    {is : List Instruction} {done out : List Operation} (h : ctx.moment done is = .ok out) :
    ∃ copies channels, List.Forall₂ CopiedAs is copies ∧ (∀ j ∈ channels, IsChannel j) ∧
      out = (copies.flatten ++ channels).foldl Circuit.pushReversed done := by
  obtain ⟨copied, hcopied, h⟩ := bind_eq_ok.1 h
  obtain ⟨collected, hcollected, h⟩ := bind_eq_ok.1 h
  obtain ⟨copies, hcopies, hdone, hcollects⟩ :=
    copied_of_copyMoment hvalid collectsChannels_empty hcopied
  have hbackground : Appends IsChannel collected out := by
    split at h
    · exact appends_of_appendBackground hvalid h
    · cases h
      exact .refl _ _
  obtain ⟨channels, hchannels, rfl⟩ :=
    (appends_of_appendCollected hcollects hcollected).trans hbackground
  exact ⟨copies, channels, hcopies, hchannels, by rw [List.foldl_append, hdone]⟩

/-! ## Readings that do not notice noise -/

theorem isSound_of_copied {p j : Instruction} (hp : p.IsSound) (h : Copied p j) : j.IsSound := by
  cases h with
  | same => exact hp
  | flipped x _ =>
    obtain ⟨g, hname, hfault⟩ := Instruction.isChecked_iff.1 hp.1
    exact ⟨Instruction.isChecked_iff.2 ⟨g, hname, hfault⟩, hp.2⟩

theorem isSound_of_forall₂_copied {ps js : List Instruction} (hps : ∀ p ∈ ps, p.IsSound)
    (h : List.Forall₂ Copied ps js) : ∀ j ∈ js, j.IsSound := by
  induction h with
  | nil => simp
  | cons hcopied _ ih =>
    rw [List.forall_mem_cons] at hps ⊢
    exact ⟨isSound_of_copied hps.1 hcopied, ih hps.2⟩

theorem isSound_of_copiedAs {i : Instruction} {js : List Instruction} (hi : i.IsSound)
    (h : CopiedAs i js) : ∀ j ∈ js, j.IsSound := by
  cases h with
  | whole => exact List.forall_mem_singleton.2 hi
  | pieces hkind hjs =>
    refine isSound_of_forall₂_copied (fun p hp => ?_) hjs
    obtain ⟨group, hgroup, rfl⟩ := List.mem_map.1 hp
    exact Instruction.isSound_pieceOf hi hkind hgroup

/-- The reading takes no notice of copying, error channels and step boundaries. -/
structure Unnoticed {β : Type} (f : Instruction → List β) : Prop where
  additive : Circuit.Additive f
  copied : ∀ i js, i.IsSound → CopiedAs i js → js.flatMap f = f i
  channel : ∀ j, IsChannel j → f j = []
  tick : ∀ i : Instruction, i.IsSound → i.isTick = true → f i = []

/-- The progress is sound and has shown a list so far, the open moment included. -/
structure Follows {β : Type} (f : Instruction → List β) (p : Progress) (shown : List β) : Prop where
  done : Circuit.Everywhere Instruction.IsSound p.done
  pending : ∀ i ∈ p.pending, i.IsSound
  shown : Circuit.unrolled f p.done.reverse ++ p.pending.reverse.flatMap f = shown

variable {β : Type} {f : Instruction → List β} {ctx : NoiseContext}

theorem Unnoticed.flatMap_copies (hf : Unnoticed f) {is : List Instruction}
    {copies : List (List Instruction)} (his : ∀ i ∈ is, i.IsSound)
    (h : List.Forall₂ CopiedAs is copies) :
    (∀ j ∈ copies.flatten, j.IsSound) ∧ copies.flatten.flatMap f = is.flatMap f := by
  induction h with
  | nil => simp
  | cons hcopied _ ih =>
    rw [List.forall_mem_cons] at his
    obtain ⟨hsound, hshown⟩ := ih his.2
    rw [List.flatten_cons, List.flatMap_append, List.flatMap_cons, hshown,
      hf.copied _ _ his.1 hcopied]
    exact ⟨List.forall_mem_append.2 ⟨isSound_of_copiedAs his.1 hcopied, hsound⟩, rfl⟩

/-- Writing the open moment shows what was pending. -/
theorem Follows.flush (hf : Unnoticed f) (hvalid : ctx.model.IsValid) {p : Progress}
    {shown : List β} (hp : Follows f p shown) {out : List Operation} (h : ctx.flush p = .ok out) :
    Circuit.Everywhere Instruction.IsSound out ∧ Circuit.unrolled f out.reverse = shown := by
  obtain ⟨copies, channels, hcopies, hchannels, rfl⟩ := copied_of_moment hvalid h
  have hpending : ∀ i ∈ p.pending.reverse, i.IsSound :=
    fun i hi => hp.pending i (List.mem_reverse.1 hi)
  obtain ⟨hsound, hshown⟩ := hf.flatMap_copies hpending hcopies
  have hwritten : ∀ j ∈ copies.flatten ++ channels, j.IsSound :=
    List.forall_mem_append.2 ⟨hsound, fun j hj => (hchannels j hj).plain.isSound⟩
  have hquiet : channels.flatMap f = [] :=
    List.flatMap_eq_nil_iff.2 fun j hj => hf.channel j (hchannels j hj)
  refine ⟨Circuit.everywhere_foldl_pushReversed Instruction.joinable_isSound hp.done hwritten, ?_⟩
  rw [Circuit.unrolled_foldl_pushReversed hf.additive (hp.done.mono fun _ h => h.1)
    fun j hj => (hwritten j hj).1, List.flatMap_append, hquiet, hshown, List.append_nil, hp.shown]

theorem follows_empty (f : Instruction → List β) : Follows f {} [] :=
  ⟨Circuit.everywhere_nil _, by simp, rfl⟩

theorem everywhere_closeBody {p : Instruction → Prop} (hp : Circuit.Joinable p)
    (htick : p .tick) {inner : List Operation} (h : Circuit.Everywhere p inner) :
    Circuit.Everywhere p (closeBody inner) := by
  have hbody := Circuit.everywhere_reverse.2 h
  unfold closeBody
  dsimp only
  split
  · exact hbody
  · exact Circuit.everywhere_push hp hbody htick

theorem unrolled_closeBody (hf : Circuit.Additive f) (hquiet : f .tick = [])
    {inner : List Operation} (h : Circuit.Everywhere Instruction.IsChecked inner) :
    Circuit.unrolled f (closeBody inner) = Circuit.unrolled f inner.reverse := by
  unfold closeBody
  dsimp only
  split
  · rfl
  · rw [Circuit.tick, Circuit.unrolled_push hf (Circuit.everywhere_reverse.2 h)
      Instruction.isChecked_tick, hquiet, List.append_nil]

theorem closeBody_spec (hf : Unnoticed f) {inner : List Operation} {shown : List β}
    (hinner : Circuit.Everywhere Instruction.IsSound inner)
    (hshown : Circuit.unrolled f inner.reverse = shown) :
    Circuit.Everywhere Instruction.IsSound (closeBody inner) ∧
      Circuit.unrolled f (closeBody inner) = shown := by
  have hquiet : f .tick = [] := hf.tick _ Instruction.isSound_tick rfl
  refine ⟨everywhere_closeBody Instruction.joinable_isSound Instruction.isSound_tick hinner, ?_⟩
  rw [unrolled_closeBody hf.additive hquiet (hinner.mono fun _ h => h.1), hshown]

mutual

theorem Follows.stepOperation (hf : Unnoticed f) (hvalid : ctx.model.IsValid) :
    (op : Operation) → Circuit.Within Instruction.IsSound op → {p out : Progress} →
      {shown : List β} → Follows f p shown → NoiseContext.stepOperation ctx p op = .ok out →
      Follows f out (shown ++ Circuit.unrolledOperation f op)
  | .instruction i, hop, p, out, shown, hp, h => by
    rw [Circuit.within_instruction] at hop
    rw [NoiseContext.stepOperation] at h
    rw [Circuit.unrolledOperation]
    split at h
    · next htick =>
      obtain ⟨done, hdone, rfl⟩ := map_eq_ok.1 h
      obtain ⟨hsound, hshown⟩ := hp.flush hf hvalid hdone
      have hquiet : f .tick = [] := hf.tick _ Instruction.isSound_tick rfl
      refine ⟨Circuit.everywhere_pushReversed Instruction.joinable_isSound hsound
        Instruction.isSound_tick, by simp, ?_⟩
      rw [Circuit.unrolled_pushReversed hf.additive (hsound.mono fun _ h => h.1)
        Instruction.isChecked_tick, hquiet, hf.tick i hop htick, hshown]
      simp
    · cases h
      refine ⟨hp.done, List.forall_mem_cons.2 ⟨hop, hp.pending⟩, ?_⟩
      rw [List.reverse_cons, List.flatMap_append, ← List.append_assoc, hp.shown,
        List.flatMap_singleton]
  | .block count body, hop, p, out, shown, hp, h => by
    rw [Circuit.within_block] at hop
    rw [NoiseContext.stepOperation] at h
    obtain ⟨done, hdone, h⟩ := bind_eq_ok.1 h
    obtain ⟨progress, hprogress, h⟩ := bind_eq_ok.1 h
    obtain ⟨inner, hinner, h⟩ := bind_eq_ok.1 h
    cases h
    obtain ⟨hsound, hshown⟩ := hp.flush hf hvalid hdone
    have hrun := Follows.stepAll hf hvalid body hop (follows_empty f) hprogress
    obtain ⟨hsound', hshown'⟩ := hrun.flush hf hvalid hinner
    obtain ⟨hbody, hbodyShown⟩ := closeBody_spec hf hsound' hshown'
    have hblock : Circuit.Within Instruction.IsChecked (.block count (closeBody inner)) :=
      Circuit.within_block.2 (hbody.mono fun _ h => h.1)
    refine ⟨Circuit.everywhere_addReversed Instruction.joinable_isSound hsound _
      (Circuit.within_block.2 hbody), by simp, ?_⟩
    rw [Circuit.unrolled_addReversed hf.additive (hsound.mono fun _ h => h.1) _ hblock, hshown]
    simp [Circuit.unrolledOperation, hbodyShown]

theorem Follows.stepAll (hf : Unnoticed f) (hvalid : ctx.model.IsValid) :
    (ops : List Operation) → Circuit.Everywhere Instruction.IsSound ops → {p out : Progress} →
      {shown : List β} → Follows f p shown → NoiseContext.stepAll ctx p ops = .ok out →
      Follows f out (shown ++ Circuit.unrolled f ops)
  | [], _, p, out, shown, hp, h => by
    cases h
    rw [Circuit.unrolled, List.append_nil]
    exact hp
  | op :: rest, hops, p, out, shown, hp, h => by
    rw [Circuit.everywhere_cons] at hops
    obtain ⟨mid, hmid, hrest⟩ := bind_eq_ok.1 h
    have hstep := Follows.stepOperation hf hvalid op hops.1 hp hmid
    rw [Circuit.unrolled, ← List.append_assoc]
    exact Follows.stepAll hf hvalid rest hops.2 hstep hrest

end

/-- Injection keeps circuits sound and what a reading that does not notice noise shows. -/
theorem unrolled_inject (hf : Unnoticed f) (hvalid : ctx.model.IsValid) {c out : Circuit}
    (hc : Circuit.Everywhere Instruction.IsSound c) (h : ctx.inject c = .ok out) :
    Circuit.Everywhere Instruction.IsSound out ∧
      Circuit.unrolled f out = Circuit.unrolled f c := by
  obtain ⟨p, hp, h⟩ := bind_eq_ok.1 h
  obtain ⟨done, hdone, h⟩ := bind_eq_ok.1 h
  cases h
  obtain ⟨hsound, hshown⟩ :=
    (Follows.stepAll hf hvalid c hc (follows_empty f) hp).flush hf hvalid hdone
  exact ⟨Circuit.everywhere_reverse.2 hsound, hshown⟩

end NoiseContext

theorem unrolled_noisyCircuit {β : Type} {f : Instruction → List β}
    (hf : NoiseContext.Unnoticed f) {c out : Circuit} {model : NoiseModel}
    {immune : OrderedSet Nat} {system : Option (OrderedSet Nat)}
    (hc : Circuit.Everywhere Instruction.IsSound c)
    (h : noisyCircuit c model immune system = .ok out) :
    Circuit.Everywhere Instruction.IsSound out ∧
      Circuit.unrolled f out = Circuit.unrolled f c := by
  obtain ⟨_, hvalidate, hinject⟩ := bind_eq_ok.1 h
  have hvalid := NoiseModel.isValid_of_validate (lift_eq_ok.1 hvalidate)
  refine NoiseContext.unrolled_inject hf ?_ hc hinject
  exact hvalid

end StabCircuit
