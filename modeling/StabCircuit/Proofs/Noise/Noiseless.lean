import StabCircuit.Proofs.Circuit.Parsed
import StabCircuit.Proofs.Moment.Injected
import StabCircuit.Proofs.Noise.Erasure
import StabCircuit.Proofs.Noise.Runs

/-!
# Injection without noise

With a model that has no rules, injection cuts the instructions of a moment into
pieces and appends these as they are.  The pieces of an instruction merge again, error
channels included, so that the circuit comes out with its bodies closed by a step
boundary and with the same numbers of operations.  An error channel over several
products is the exception: its pieces do not merge, and it comes out as one
instruction for each product.
-/

namespace StabCircuit

namespace Circuit

/-! ## Closed bodies -/

theorem ticked_append (c d : List Operation) : ticked (c ++ d) = ticked c ++ ticked d := by
  induction c with
  | nil => rfl
  | cons op rest ih => rw [List.cons_append, ticked, ih, ticked, List.cons_append]

theorem ticked_map_instruction (is : List Instruction) :
    ticked (is.map .instruction) = is.map .instruction := by
  induction is with
  | nil => rfl
  | cons i is ih => rw [List.map_cons, ticked, ih, tickedOperation]

theorem addAllReversed_map_instruction (done : List Operation) (is : List Instruction) :
    addAllReversed done (is.map .instruction) = is.foldl pushReversed done := by
  induction is generalizing done with
  | nil => rfl
  | cons i is ih => rw [List.map_cons, addAllReversed, addReversed, ih, List.foldl_cons]

/-! ## Counts -/

/-- The counters agree on all names but that of a step boundary. -/
def SameCounts (counts counts' : OrderedMap String Nat) : Prop :=
  ∀ name, name ≠ Gate.tick.name → counts.get? name = counts'.get? name

theorem SameCounts.addCount {counts counts' : OrderedMap String Nat}
    (h : SameCounts counts counts') (name : String) (amount : Nat) :
    SameCounts (Circuit.addCount counts name amount) (Circuit.addCount counts' name amount) := by
  intro other hother
  rw [Circuit.addCount, Circuit.addCount, OrderedMap.get?_alter, OrderedMap.get?_alter]
  split
  · next hsame =>
    obtain rfl : name = other := Std.LawfulEqOrd.eq_of_compare hsame
    rw [h name hother]
  · exact h other hother

theorem SameCounts.countInstruction {counts counts' : OrderedMap String Nat}
    (h : SameCounts counts counts') (weight : Nat) (entries : List (String × Nat)) :
    SameCounts
      (entries.foldl (fun counts (name, n) => Circuit.addCount counts name (n * weight)) counts)
      (entries.foldl (fun counts (name, n) => Circuit.addCount counts name (n * weight))
        counts') := by
  induction entries generalizing counts counts' with
  | nil => exact h
  | cons entry entries ih => exact ih (h.addCount entry.1 (entry.2 * weight))

/-- A step boundary changes no count but its own. -/
theorem SameCounts.countTick {counts counts' : OrderedMap String Nat}
    (h : SameCounts counts counts') (weight : Nat) :
    SameCounts (countOperation weight counts (.instruction .tick)) counts' := by
  have htick : instructionCounts .tick = [(Gate.tick.name, 1)] := by
    have hkind : Instruction.tick.kind = Gate.tick.kind :=
      Instruction.kind_of_gate? (Instruction.gate?_of_name rfl)
    rw [instructionCounts, hkind]
    rfl
  intro other hother
  simp only [countOperation, htick, List.foldl_cons, List.foldl_nil, Circuit.addCount]
  rw [OrderedMap.get?_alter, if_neg]
  · exact h other hother
  · intro hsame
    exact hother (Std.LawfulEqOrd.eq_of_compare hsame).symm

theorem countAll_append (weight : Nat) (counts : OrderedMap String Nat) (c d : List Operation) :
    countAll weight counts (c ++ d) = countAll weight (countAll weight counts c) d := by
  induction c generalizing counts with
  | nil => rfl
  | cons op rest ih => rw [List.cons_append, countAll, ih, countAll]

mutual

theorem SameCounts.countTickedOperation : (op : Operation) → (weight : Nat) →
    {counts counts' : OrderedMap String Nat} → SameCounts counts counts' →
    SameCounts (countOperation weight counts (tickedOperation op))
      (countOperation weight counts' op)
  | .instruction i, weight, counts, counts', h => by
    rw [tickedOperation, countOperation, countOperation]
    exact h.countInstruction weight _
  | .block count body, weight, counts, counts', h => by
    have hbody := SameCounts.countTicked body (weight * count) h
    rw [tickedOperation, countOperation, countOperation, closed]
    split
    · exact hbody
    · rw [tick_eq_append, countAll_append]
      exact hbody.countTick (weight * count)

theorem SameCounts.countTicked : (c : List Operation) → (weight : Nat) →
    {counts counts' : OrderedMap String Nat} → SameCounts counts counts' →
    SameCounts (countAll weight counts (ticked c)) (countAll weight counts' c)
  | [], _, counts, counts', h => h
  | op :: rest, weight, counts, counts', h => by
    rw [ticked, countAll, countAll]
    exact SameCounts.countTicked rest weight (SameCounts.countTickedOperation op weight h)

end

/-- Closing bodies changes the number of no operation but the step boundary. -/
theorem sameCounts_ticked (c : Circuit) : SameCounts (gateCounts (ticked c)) (gateCounts c) :=
  SameCounts.countTicked c 1 fun _ _ => rfl

end Circuit

/-! ## Instructions that come out as they are -/

namespace Instruction

/-- An instruction whose pieces make it up: targets and no doubled combiner unless it is an
annotation or step boundary, no argument that is not a number, and none on a step boundary. -/
structure IsRegular (i : Instruction) : Prop where
  targets : i.kind.isMetadata = false → i.targets ≠ []
  combiners : i.kind.isMetadata = false → Target.NoDoubledCombiner i.targets
  numbers : ∀ x ∈ i.args, x.isNaN = false
  args : i.kind = .tick → i.args = []

instance (i : Instruction) : Decidable i.IsRegular :=
  decidable_of_iff
    ((i.kind.isMetadata = false → i.targets ≠ []) ∧
      (i.kind.isMetadata = false → Target.NoDoubledCombiner i.targets) ∧
      (∀ x ∈ i.args, x.isNaN = false) ∧ (i.kind = .tick → i.args = []))
    ⟨fun h => ⟨h.1, h.2.1, h.2.2.1, h.2.2.2⟩, fun h => ⟨h.1, h.2, h.3, h.4⟩⟩

/-- An error channel over products has one product only. -/
def HasOneError (i : Instruction) : Prop :=
  i.kind = .noiseProduct → i.targetGroups.length = 1

instance : DecidablePred HasOneError := fun _ => inferInstanceAs (Decidable (_ → _))

end Instruction

namespace NoiseContext

open Circuit

variable {ctx : NoiseContext}

/-- Without rules pieces are copied as they are, and no channel is collected. -/
theorem copiesBy_default (hctx : ctx.model = {}) :
    ctx.CopiesBy (fun m => m.after = OrderedMap.empty) Eq where
  piece := by
    intro m p result hm h
    rw [piece_default hctx] at h
    obtain ⟨observed, hobserved, rfl⟩ := map_eq_ok.1 h
    exact ⟨(after_of_observe hobserved).trans hm, rfl⟩
  active := id

theorem foldl_pushReversed_copiedBy {i : Instruction} {js : List Instruction} (hi : i.IsChecked)
    (hregular : i.IsRegular) (hone : i.HasOneError) (h : CopiedBy Eq i js)
    (done : List Operation) : js.foldl pushReversed done = pushReversed done i := by
  cases h with
  | whole => rfl
  | pieces hkind hjs =>
    rw [List.forall₂_eq_eq_eq] at hjs
    rw [← hjs]
    apply foldl_pushReversed_piecesOf hi hkind (hregular.targets hkind) (hregular.combiners hkind)
    by_cases hproduct : i.kind = .noiseProduct
    · exact .inr (hone hproduct)
    · exact .inl (Instruction.fuses_self hi hkind hproduct hregular.numbers)

theorem foldl_pushReversed_copies {is : List Instruction} {copies : List (List Instruction)}
    (his : ∀ i ∈ is, i.IsChecked ∧ i.IsRegular ∧ i.HasOneError)
    (h : List.Forall₂ (CopiedBy Eq) is copies) (done : List Operation) :
    copies.flatten.foldl pushReversed done = is.foldl pushReversed done := by
  induction h generalizing done with
  | nil => rfl
  | cons hcopied _ ih =>
    rw [List.forall_mem_cons] at his
    rw [List.flatten_cons, List.foldl_append, List.foldl_cons,
      foldl_pushReversed_copiedBy his.1.1 his.1.2.1 his.1.2.2 hcopied, ih his.2]

/-- The instructions of a moment are appended as they are. -/
theorem moment_default (hctx : ctx.model = {}) {is : List Instruction}
    (his : ∀ i ∈ is, i.IsChecked ∧ i.IsRegular ∧ i.HasOneError) {done out : List Operation}
    (h : ctx.moment done is = .ok out) : out = is.foldl pushReversed done := by
  obtain ⟨⟨m, copied⟩, hcopied, h⟩ := bind_eq_ok.1 h
  obtain ⟨copies, hcopies, hdone, hafter⟩ := (copiesBy_default hctx).copyMoment rfl hcopied
  dsimp only at h hdone hafter
  rw [hafter] at h
  obtain ⟨collected, hcollected, h⟩ := bind_eq_ok.1 h
  cases hcollected
  rw [appendBackground_default hctx, ite_self] at h
  rw [← foldl_pushReversed_copies his hcopies, ← hdone]
  exact (Except.ok.inj h).symm

/-- What is written for a settled circuit is that circuit with its bodies closed. -/
theorem keeps_ticked (hctx : ctx.model = {}) :
    ctx.Keeps (fun i => i.IsChecked ∧ i.IsRegular ∧ i.HasOneError)
      (fun done taken => Settled taken.reverse → done = (ticked taken.reverse).reverse) where
  start := fun _ => rfl
  moment := by
    intro done taken out is hdone his h hsettled
    rw [List.reverse_append, List.reverse_reverse] at hsettled ⊢
    have hwritten := settled_ticked _ hsettled
    rw [ticked_append, ticked_map_instruction] at hwritten ⊢
    rw [moment_default hctx (fun i hi => (his i hi).1) h, hdone (settled_append.1 hsettled).1,
      ← addAllReversed_map_instruction, addAllReversed_of_settled, List.reverse_append]
    rwa [List.reverse_reverse]
  tick := by
    intro done taken i hdone hi htick hsettled
    obtain rfl := eq_tick hi.1 hi.2.1.args htick
    rw [pushReversed_of_not_fuses fun last _ _ => fuses_tick last,
      hdone (settled_reverse_cons.1 hsettled).1, List.reverse_cons, ticked_append,
      List.reverse_append]
    rfl
  block := by
    intro done taken inner body count hdone hinner hsettled
    obtain ⟨hbefore, hblock, -⟩ := settled_reverse_cons.1 hsettled
    rw [SettledOperation] at hblock
    rw [List.reverse_reverse] at hinner
    have hbody : closeBody inner = closed (ticked body) := by
      rw [hinner hblock.2, closeBody, List.reverse_reverse]
      rfl
    rw [addReversed_block hblock.1, hbody, hdone hbefore, List.reverse_cons, ticked_append,
      List.reverse_append]
    rfl

end NoiseContext

/-- Without noise a circuit in which no moment reuses a qubit comes out as it is, error channels
included, with the bodies of its blocks closed by a step boundary. -/
theorem noisyCircuit_default {text : String} {c : Circuit} (hc : Circuit.parse text = .ok c)
    (hregular : Circuit.Everywhere Instruction.IsRegular c)
    (hone : Circuit.Everywhere Instruction.HasOneError c)
    (hfree : Mark.ReuseFree (Circuit.segmented c)) (immune : OrderedSet Nat)
    (system : Option (OrderedSet Nat)) :
    noisyCircuit c {} immune system = .ok (Circuit.ticked c) ∧
      ∀ name, name ≠ Gate.tick.name →
        (Circuit.gateCounts (Circuit.ticked c)).get? name = (Circuit.gateCounts c).get? name := by
  have hbuilt := Circuit.Built.of_parse hc
  refine ⟨?_, Circuit.sameCounts_ticked c⟩
  have hverdict := verdict_noisyCircuit hbuilt.checked immune system
  cases hout : noisyCircuit c {} immune system with
  | error e =>
    have hreuse := (hverdict.other e hout).resolve_right (not_not_intro trivial)
    exact absurd hfree (hverdict.reused hreuse)
  | ok out =>
    obtain ⟨_, -, hinject⟩ := bind_eq_ok.1 hout
    have hkeeps : NoiseContext.Keeps ⟨{}, immune, system.getD (Circuit.qubits c)⟩ _ _ :=
      NoiseContext.keeps_ticked rfl
    have hall : Circuit.Everywhere (fun i => i.IsChecked ∧ i.IsRegular ∧ i.HasOneError) c :=
      fun i hi => ⟨hbuilt.checked i hi, hregular i hi, hone i hi⟩
    have hsame := hkeeps.inject hall hinject
    rw [List.reverse_reverse] at hsame
    rw [List.reverse_injective (hsame hbuilt.settled)]

/-- Rounds with channels after operations and a chain of correlated errors. -/
def correlatedText : String :=
  "R 0 1\nX_ERROR(0.1) 0 1\nTICK\nREPEAT 2 \x7b\nCX 0 1\nDEPOLARIZE2(0.1) 0 1\n" ++
    "E(0.1) X0*X1\nELSE_CORRELATED_ERROR(0.2) Z1\nTICK\nMPP X0*X1 Z2\n\x7d\n"

theorem noisyCircuit_default_correlatedText :
    ∃ c, Circuit.parse correlatedText = .ok c ∧ Circuit.Everywhere Instruction.IsRegular c ∧
      Circuit.Everywhere Instruction.HasOneError c ∧ Mark.ReuseFree (Circuit.segmented c) ∧
      noisyCircuit c {} (OrderedSet.ofList [1]) none = .ok (Circuit.ticked c) ∧
      ∀ name, name ≠ Gate.tick.name →
        (Circuit.gateCounts (Circuit.ticked c)).get? name = (Circuit.gateCounts c).get? name := by
  have hok : ((Circuit.parse correlatedText).toOption.any fun c =>
      decide (Circuit.Everywhere Instruction.IsRegular c) &&
        decide (Circuit.Everywhere Instruction.HasOneError c) &&
        (noisyCircuit c {} (OrderedSet.ofList [1]) none).isOk) = true := by
    decide +kernel
  cases hc : Circuit.parse correlatedText with
  | error e => simp [hc, Except.toOption] at hok
  | ok c =>
    simp only [hc, Except.toOption, Option.any_some, Bool.and_eq_true, decide_eq_true_eq] at hok
    obtain ⟨⟨hregular, hone⟩, hruns⟩ := hok
    have hverdict := verdict_noisyCircuit (Circuit.Built.of_parse hc).checked
      (OrderedSet.ofList [1]) none
    have hfree : Mark.ReuseFree (Circuit.segmented c) := by
      cases hout : noisyCircuit c {} (OrderedSet.ofList [1]) none with
      | error e => simp [hout, Except.isOk, Except.toBool] at hruns
      | ok out => exact (hverdict.ok out hout).1
    exact ⟨c, rfl, hregular, hone, hfree,
      noisyCircuit_default hc hregular hone hfree (OrderedSet.ofList [1]) none⟩

/-- An error channel over two products comes out as two, so that it does not suffice that the
pieces of instructions make them up. -/
theorem noisyCircuit_default_splitsErrors :
    ¬ ∀ (text : String) (c : Circuit), Circuit.parse text = .ok c →
      Circuit.Everywhere Instruction.IsRegular c → Mark.ReuseFree (Circuit.segmented c) →
      ∀ (immune : OrderedSet Nat) (system : Option (OrderedSet Nat)),
        noisyCircuit c {} immune system = .ok (Circuit.ticked c) := by
  intro hall
  have hbad : ((Circuit.parse "CORRELATED_ERROR(0.1) X0 X1\n").toOption.any fun c =>
      decide (Circuit.Everywhere Instruction.IsRegular c) &&
        decide (Circuit.segmented c = []) && decide ((Circuit.ticked c).length = 1) &&
        ((noisyCircuit c {} OrderedMap.empty none).toOption.any fun out =>
          decide (out.length = 2))) = true := by
    decide +kernel
  cases hc : Circuit.parse "CORRELATED_ERROR(0.1) X0 X1\n" with
  | error e => simp [hc, Except.toOption] at hbad
  | ok c =>
    simp only [hc, Except.toOption, Option.any_some, Bool.and_eq_true, decide_eq_true_eq] at hbad
    obtain ⟨⟨⟨hregular, hmarks⟩, hone⟩, htwo⟩ := hbad
    have hfree : Mark.ReuseFree (Circuit.segmented c) := by
      rw [hmarks]
      exact Mark.reuseFree_nil
    rw [hall _ c hc hregular hfree OrderedMap.empty none] at htwo
    simp only [Option.any_some, decide_eq_true_eq, hone] at htwo
    cases htwo

end StabCircuit
