import StabCircuit.Noise.Injection
import StabCircuit.Proofs.Moment.Verified

/-!
# What injection without noise reports

Injection copies out the moments of a circuit one by one and takes note of the
uses in each.  A repeat block ends the moment before it, its body is copied once,
and the end of the body ends a moment too.  With a model that has no rules nothing
but a reuse within such a moment stops it.
-/

namespace StabCircuit

open Mark

namespace Instruction

theorem marks_of_isMetadata {i : Instruction} (hi : i.IsChecked) (htick : i.isTick = false)
    (h : i.kind.isMetadata = true) : i.marks = [] := by
  obtain ⟨g, hname, hgate, hkind, -⟩ := hi.exists_gate
  have hg : g ≠ .tick := by simpa [isTick_eq hname] using htick
  rw [marks, shown_of_gate? markPiece hgate]
  apply List.flatMap_eq_nil_iff.2
  intro group _
  rw [markPiece, if_neg hg, if_pos (by simp [← hkind, h])]

theorem wholeMarks_of_operation {i : Instruction} (h : i.kind.isMetadata = false) :
    i.wholeMarks =
      if i.kind.isNoise || i.isClassicallyControlled then [] else i.qubits.map use := by
  have htick : i.isTick = false := by
    rw [Bool.eq_false_iff]
    intro htick
    have hname : i.name = Gate.name .tick := by simpa [isTick] using htick
    simp [kind_of_gate? (gate?_of_name hname), Gate.kind, GateKind.isMetadata] at h
  simp only [wholeMarks, htick, Verification.isExempt, h, Bool.false_or, Bool.false_eq_true,
    if_false]

theorem unmixed_pieceOf {i : Instruction} {group : List Target} (h : i.IsPiece group) :
    (i.pieceOf group).Unmixed := by
  intro hclassical group' hgroup'
  rw [h.targetGroups, List.mem_singleton] at hgroup'
  subst hgroup'
  rw [isClassicallyControlled, Bool.and_eq_true, List.any_eq_true] at hclassical
  obtain ⟨-, t, ht, htclassical⟩ := hclassical
  refine List.any_eq_true.2 ⟨t, ?_, htclassical⟩
  rw [pieceOf] at ht
  dsimp only at ht
  split at ht
  · apply (Target.mem_joinProduct ht).resolve_right
    rintro rfl
    exact absurd htclassical (by decide)
  · exact ht

/-- The marks of an instruction are those of its pieces. -/
theorem flatMap_wholeMarks_pieces {i : Instruction} (hi : i.IsChecked)
    (hkind : i.kind.isMetadata = false) :
    (NoiseContext.piecesOf i).flatMap wholeMarks = i.marks := by
  rw [marks, ← flatMap_shown_pieceOf markPiece hi hkind, NoiseContext.piecesOf, List.flatMap_map]
  apply List.flatMap_congr
  intro group hgroup
  have hpiece := isPiece_of_mem_targetGroups hi hkind hgroup
  exact (marks_eq_wholeMarks hpiece.checked (unmixed_pieceOf hpiece)).symm

end Instruction

namespace Circuit

mutual

/-- The marks of an operation where a repeat block stands for moments of its own. -/
def segmentedOperation : Operation → List Mark
  | .instruction i => i.marks
  | .block _ body => boundary :: segmented body ++ [boundary]

/-- The marks of a circuit with repeat blocks as moments of their own. -/
def segmented : List Operation → List Mark
  | [] => []
  | op :: rest => segmentedOperation op ++ segmented rest

end

end Circuit

namespace NoiseContext

open Instruction

theorem claim_eq_map (gate : String) (m : Moment) (qubits : List Nat) :
    m.claim false gate qubits = (Verification.claim gate m.exclusive qubits).map fun used =>
      { m with exclusive := used } := by
  induction qubits generalizing m with
  | nil => rfl
  | cons q qubits ih =>
    rw [Moment.claim, Verification.claim, Bool.not_false, Bool.and_true]
    split
    · rfl
    · exact ih _

/-- The moment has taken note of the marks `ms`, which are free of reuse, and waits with no
channels. -/
structure Notes (ms : List Mark) (m : Moment) : Prop where
  free : ReuseFree ms
  exclusive : m.exclusive = openUses ms
  after : m.after = OrderedMap.empty

theorem notes_initial : Notes [] {} where
  free := reuseFree_nil
  exclusive := rfl
  after := rfl

variable {ctx : NoiseContext} {ms : List Mark} {m : Moment}

/-! ## Pieces -/

theorem verdict_collapse (hm : Notes ms m) (p : Instruction) :
    Verdict True True (Notes ms)
      (if p.kind.isCollapsing then
        (pure { m with collapsed := p.qubits ++ m.collapsed } : Except CompileError Moment)
      else pure m) := by
  split
  · exact .of_ok trivial ⟨hm.free, hm.exclusive, hm.after⟩
  · exact .of_ok trivial hm

/-- Taking note of a piece tells whether it brings about a reuse. -/
theorem verdict_observe (hctx : ctx.model = {}) (hm : Notes ms m) {p : Instruction}
    (hkind : p.kind.isMetadata = false) :
    Verdict (ReuseFree (ms ++ p.wholeMarks)) True (Notes (ms ++ p.wholeMarks))
      (ctx.observe m p) := by
  rw [observe, hctx, wholeMarks_of_operation hkind]
  by_cases hnoise : p.kind.isNoise = true
  · simp only [hnoise, Bool.true_or, if_true, List.append_nil]
    exact .of_ok hm.free hm
  simp only [hnoise, Bool.false_or, Bool.false_eq_true, if_false]
  by_cases hclassical : p.isClassicallyControlled = true
  · simp only [hclassical, if_true, List.append_nil]
    have hused : Notes ms { m with used := p.qubits ++ m.used } :=
      ⟨hm.free, hm.exclusive, hm.after⟩
    exact (verdict_collapse hused p).congr ⟨fun _ => hm.free, fun _ => trivial⟩ id
  · simp only [hclassical, Bool.false_eq_true, if_false]
    rw [claim_eq_map, hm.exclusive]
    have hclaim : Verdict (ReuseFree (ms ++ p.qubits.map use)) True
        (Notes (ms ++ p.qubits.map use))
        ((Verification.claim p.name (openUses ms) p.qubits).map fun used =>
          { m with used := p.qubits ++ m.used, exclusive := used }) := by
      apply (Verification.verdict_claim hm.free p.name p.qubits).map
      intro used hfree hused
      exact ⟨hfree, hused, hm.after⟩
    apply (hclaim.bind fun m' _ hm' => verdict_collapse hm' p).congr
    · exact iff_of_eq (and_true _)
    · exact fun _ => ⟨trivial, trivial⟩

theorem ruleFor_default (p : Instruction) (rule : NoiseRule) :
    ({} : NoiseModel).ruleFor p ≠ .rule rule := by
  have hwildcard : ({} : NoiseModel).wildcard? p.kind = none := by
    cases p.kind <;> rfl
  have hbases : (p.measuredBases?.bind ({} : NoiseModel).measureRules.get?) = none := by
    cases p.measuredBases? <;> rfl
  rw [NoiseModel.ruleFor]
  split
  · simp
  · have hname : ({} : NoiseModel).gateRule? p.name = none := rfl
    simp [hname, hwildcard, hbases]

/-- Without rules a piece is only taken note of. -/
theorem piece_default (hctx : ctx.model = {}) (m : Moment) (p : Instruction) :
    ctx.piece m p = (ctx.observe m p).map fun m => (m, p) := by
  rw [piece]
  cases ctx.observe m p with
  | error e => rfl
  | ok out =>
    simp only [bind, Except.bind, hctx]
    split
    · rfl
    · split
      · next rule hrule => exact absurd hrule (ruleFor_default p rule)
      · rfl
      · rfl

/-! ## Moments -/

theorem verdict_copyPieces (hctx : ctx.model = {}) (hm : Notes ms m) {ps : List Instruction}
    (hps : ∀ p ∈ ps, p.kind.isMetadata = false) (done : List Operation) :
    Verdict (ReuseFree (ms ++ ps.flatMap wholeMarks)) True
      (fun out => Notes (ms ++ ps.flatMap wholeMarks) out.1) (ctx.copyPieces m done ps) := by
  induction ps generalizing ms m done with
  | nil =>
    rw [List.flatMap_nil, List.append_nil]
    exact .of_ok hm.free hm
  | cons p ps ih =>
    rw [List.forall_mem_cons] at hps
    have hobserve := verdict_observe hctx hm hps.1
    have hpiece : Verdict (ReuseFree (ms ++ p.wholeMarks)) True
        (fun out : Moment × Instruction => Notes (ms ++ p.wholeMarks) out.1) (ctx.piece m p) := by
      rw [piece_default hctx]
      exact hobserve.map fun out _ hout => hout
    rw [copyPieces, List.flatMap_cons, ← List.append_assoc]
    apply (hpiece.bind_of_imp ReuseFree.of_append_left ?_).congr Iff.rfl fun h => ⟨h, h⟩
    intro out _ hout
    exact ih hout hps.2 _

/-- Copying out a moment tells whether its instructions bring about a reuse. -/
theorem verdict_copyMoment (hctx : ctx.model = {}) (hm : Notes ms m) {is : List Instruction}
    (his : ∀ i ∈ is, i.IsChecked ∧ i.isTick = false) (done : List Operation) :
    Verdict (ReuseFree (ms ++ is.flatMap marks)) True
      (fun out => Notes (ms ++ is.flatMap marks) out.1) (ctx.copyMoment m done is) := by
  induction is generalizing ms m done with
  | nil =>
    rw [List.flatMap_nil, List.append_nil]
    exact .of_ok hm.free hm
  | cons i is ih =>
    rw [List.forall_mem_cons] at his
    rw [copyMoment, List.flatMap_cons, ← List.append_assoc]
    split
    · next hkind =>
      rw [marks_of_isMetadata his.1.1 his.1.2 hkind, List.append_nil]
      exact ih hm his.2 _
    · next hkind =>
      have hkind : i.kind.isMetadata = false := by simpa using hkind
      have hactive : Notes ms { m with active := true } := ⟨hm.free, hm.exclusive, hm.after⟩
      have hkinds : ∀ p ∈ piecesOf i, p.kind.isMetadata = false := by
        intro p hp
        obtain ⟨group, -, rfl⟩ := List.mem_map.1 hp
        exact hkind
      have hpieces := verdict_copyPieces hctx hactive hkinds done
      rw [flatMap_wholeMarks_pieces his.1.1 hkind] at hpieces
      apply (hpieces.bind_of_imp ReuseFree.of_append_left ?_).congr Iff.rfl fun h => ⟨h, h⟩
      intro out _ hout
      exact ih hout his.2 _

theorem appendBackground_default (hctx : ctx.model = {}) (m : Moment) (done : List Operation) :
    ctx.appendBackground m done = .ok done := by
  have hidle : ∀ qubits, appendIdle done 0 qubits = .ok done := by
    intro qubits
    simp [appendIdle, Scalar.numLt]
  have hmodel : ctx.model.idleDepolarization = 0 ∧ ctx.model.waitingDepolarization = 0 ∧
      ctx.model.tickNoise = none := by
    rw [hctx]
    exact ⟨rfl, rfl, rfl⟩
  simp only [appendBackground, hmodel, hidle, bind, Except.bind]

/-- Copying out a moment with its noise tells whether its instructions bring about a reuse. -/
theorem verdict_moment (hctx : ctx.model = {}) {is : List Instruction}
    (his : ∀ i ∈ is, i.IsChecked ∧ i.isTick = false) (done : List Operation) :
    Verdict (ReuseFree (is.flatMap marks)) True (fun _ => True) (ctx.moment done is) := by
  have hcopy := verdict_copyMoment hctx notes_initial his done
  rw [List.nil_append] at hcopy
  have hrest : ∀ out : Moment × List Operation, Notes (is.flatMap marks) out.1 →
      Verdict (ReuseFree (is.flatMap marks)) True (fun _ => True)
        (appendCollected out.2 out.1.after.entries >>= fun done =>
          if out.1.active then ctx.appendBackground out.1 done else .ok done) := by
    intro out hout
    rw [hout.after]
    show Verdict _ _ _ (if out.1.active then ctx.appendBackground out.1 out.2 else .ok out.2)
    rw [appendBackground_default hctx, ite_self]
    exact .of_ok hout.free trivial
  exact (hcopy.bind_of_imp id fun out _ hout => hrest out hout).congr Iff.rfl fun h => ⟨h, h⟩

/-! ## Whole circuits -/

/-- The instructions of the open moment are checked and end no moment. -/
def IsOpen (p : Progress) : Prop := ∀ i ∈ p.pending, i.IsChecked ∧ i.isTick = false

/-- The marks of the open moment. -/
def pendingMarks (p : Progress) : List Mark := p.pending.reverse.flatMap marks

theorem verdict_flush (hctx : ctx.model = {}) {p : Progress} (hp : IsOpen p) :
    Verdict (ReuseFree (pendingMarks p)) True (fun _ => True) (ctx.flush p) := by
  apply verdict_moment hctx
  intro i hi
  exact hp i (List.mem_reverse.1 hi)

/-- What comes after tells whether the open moment followed by certain marks has a reuse. -/
def Tells (ys : List Mark) (k : Progress → Except CompileError (List Operation)) : Prop :=
  ∀ p, IsOpen p → Verdict (ReuseFree (pendingMarks p ++ ys)) True (fun _ => True) (k p)

theorem tells_flush (hctx : ctx.model = {}) : Tells [] ctx.flush := by
  intro p hp
  rw [List.append_nil]
  exact verdict_flush hctx hp

/-- At a boundary what comes after starts with an empty moment. -/
theorem Tells.start {ys : List Mark} {k : Progress → Except CompileError (List Operation)}
    (hk : Tells ys k) (done : List Operation) :
    Verdict (ReuseFree ys) True (fun _ => True) (k { done }) :=
  hk { done } (by simp [IsOpen])

mutual

theorem tells_stepOperation (hctx : ctx.model = {}) {ys : List Mark}
    {k : Progress → Except CompileError (List Operation)} (hk : Tells ys k) :
    (op : Operation) → Circuit.Within Instruction.IsChecked op →
      Tells (Circuit.segmentedOperation op ++ ys) fun p => stepOperation ctx p op >>= k
  | .instruction i, hop => by
    intro p hp
    rw [Circuit.within_instruction] at hop
    show Verdict _ _ _ (stepOperation ctx p (.instruction i) >>= k)
    rw [stepOperation, Circuit.segmentedOperation]
    split
    · next htick =>
      have hflush := verdict_flush hctx hp
      rw [map_eq_bind, bind_assoc, marks_of_isTick hop htick, List.singleton_append]
      apply (hflush.bind fun done _ _ => hk.start (Circuit.pushReversed done .tick)).congr
      · exact reuseFree_append_boundary.symm
      · exact fun h => ⟨h, h⟩
    · next htick =>
      have hopen : IsOpen { p with pending := i :: p.pending } :=
        List.forall_mem_cons.2 ⟨⟨hop, by simpa using htick⟩, hp⟩
      have hmarks : pendingMarks { p with pending := i :: p.pending } =
          pendingMarks p ++ i.marks := by
        simp [pendingMarks]
      rw [← List.append_assoc, ← hmarks]
      exact hk _ hopen
  | .block count body, hop => by
    intro p hp
    rw [Circuit.within_block] at hop
    have hbody := tells_stepAll hctx (tells_flush hctx) body hop |>.start []
    have hseq : stepOperation ctx p (.block count body) >>= k = ctx.flush p >>= fun done =>
        (stepAll ctx {} body >>= ctx.flush) >>= fun inner =>
          k { done := Circuit.addReversed done (.block count (closeBody inner)) } := by
      simp only [stepOperation, bind_assoc, pure_bind]
    show Verdict _ _ _ (stepOperation ctx p (.block count body) >>= k)
    rw [hseq, Circuit.segmentedOperation]
    apply ((verdict_flush hctx hp).bind fun done _ _ => hbody.bind fun inner _ _ =>
      hk.start (Circuit.addReversed done (.block count (closeBody inner)))).congr
    · simp [reuseFree_append_boundary]
    · exact fun h => ⟨h, h, h⟩

theorem tells_stepAll (hctx : ctx.model = {}) {ys : List Mark}
    {k : Progress → Except CompileError (List Operation)} (hk : Tells ys k) :
    (ops : List Operation) → Circuit.Everywhere Instruction.IsChecked ops →
      Tells (Circuit.segmented ops ++ ys) fun p => stepAll ctx p ops >>= k
  | [], _ => hk
  | op :: rest, hops => by
    rw [Circuit.everywhere_cons] at hops
    have hrest := tells_stepAll hctx hk rest hops.2
    have hstep := tells_stepOperation hctx hrest op hops.1
    intro p hp
    have hseq : (stepAll ctx p (op :: rest) >>= k) =
        (stepOperation ctx p op >>= fun p => stepAll ctx p rest >>= k) := by
      rw [stepAll]
      exact bind_assoc ..
    show Verdict _ _ _ (stepAll ctx p (op :: rest) >>= k)
    rw [hseq, Circuit.segmented, List.append_assoc]
    exact hstep p hp

end

theorem verdict_inject (hctx : ctx.model = {}) {c : Circuit}
    (hc : Circuit.Everywhere Instruction.IsChecked c) :
    Verdict (ReuseFree (Circuit.segmented c)) True (fun _ => True) (ctx.inject c) := by
  have hrun := tells_stepAll hctx (tells_flush hctx) c hc |>.start []
  have hmap : ctx.inject c = (stepAll ctx {} c >>= ctx.flush).map List.reverse := by
    rw [map_eq_bind, bind_assoc]
    rfl
  rw [hmap]
  simpa using hrun.map fun _ _ _ => trivial

end NoiseContext

/-- With a model that has no rules, injection stops exactly at a reuse. -/
theorem verdict_noisyCircuit {c : Circuit} (hc : Circuit.Everywhere Instruction.IsChecked c)
    (immune : OrderedSet Nat) (system : Option (OrderedSet Nat)) :
    Verdict (ReuseFree (Circuit.segmented c)) True (fun _ => True)
      (noisyCircuit c {} immune system) := by
  have hvalid : CompileError.lift ({} : NoiseModel).validate = .ok () := by
    have hzero : ∀ name, checkProbability name 0 = .ok () := by
      intro name
      rw [checkProbability, if_pos (by decide +kernel)]
    have hall : ({} : NoiseModel).validate = .ok () := by
      simp only [NoiseModel.validate, hzero]
      rfl
    rw [hall]
    rfl
  rw [noisyCircuit, hvalid]
  exact NoiseContext.verdict_inject rfl hc

end StabCircuit
