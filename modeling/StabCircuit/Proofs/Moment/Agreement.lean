import StabCircuit.Proofs.Circuit.Parsed
import StabCircuit.Proofs.Circuit.Settled
import StabCircuit.Proofs.Moment.Injected

/-!
# Verification and injection agree on reuse

Both look for a qubit that is used twice between boundaries, one in the unrolled
circuit, the other with the borders of every repeat block as boundaries.  So a
reuse that injection finds is found by verification, and the two agree when no
moment reaches across the border of a block.
-/

namespace StabCircuit

open Mark

namespace Circuit

mutual

theorem milder_segmentedOperation : (op : Operation) → SettledOperation op →
    Milder (segmentedOperation op) (unrolledOperation Instruction.marks op)
  | .instruction i, _ => by
    rw [segmentedOperation, unrolledOperation]
    exact .refl _
  | .block count body, hop => by
    rw [SettledOperation] at hop
    obtain ⟨n, rfl⟩ := Nat.exists_eq_add_of_le' (Nat.le_of_succ_le hop.1)
    rw [segmentedOperation, unrolledOperation, List.replicate_succ, List.flatten_cons]
    have hbody := milder_segmented body hop.2
    exact ((milder_boundary []).append hbody).append (milder_boundary _)

/-- With blocks as moments of their own there are no more reuses than unrolled. -/
theorem milder_segmented : (ops : List Operation) → Settled ops →
    Milder (segmented ops) (unrolled Instruction.marks ops)
  | [], _ => .refl _
  | op :: rest, hops => by
    rw [Settled] at hops
    rw [segmented, unrolled]
    exact (milder_segmentedOperation op hops.1).append (milder_segmented rest hops.2.2)

end

mutual

/-- No moment reaches across the border of a block: nothing is open where it starts, and nothing
at the end of its body. -/
def FencedOperation (before : List Mark) : Operation → Prop
  | .instruction _ => True
  | .block _ body => Closed before ∧ Fenced [] body ∧ Closed (unrolled Instruction.marks body)

/-- No moment reaches across the border of a block of the circuit that follows the marks
`before`. -/
def Fenced (before : List Mark) : List Operation → Prop
  | [] => True
  | op :: rest => FencedOperation before op ∧
      Fenced (before ++ unrolledOperation Instruction.marks op) rest

end

mutual

instance decidableFencedOperation : (before : List Mark) → (op : Operation) →
    Decidable (FencedOperation before op)
  | _, .instruction _ => inferInstanceAs (Decidable True)
  | before, .block _ body =>
    have := decidableFenced [] body
    inferInstanceAs (Decidable (Closed before ∧ _ ∧ _))

instance decidableFenced : (before : List Mark) → (ops : List Operation) →
    Decidable (Fenced before ops)
  | _, [] => inferInstanceAs (Decidable True)
  | before, op :: rest =>
    have := decidableFencedOperation before op
    have := decidableFenced (before ++ unrolledOperation Instruction.marks op) rest
    inferInstanceAs (Decidable (_ ∧ _))

end

mutual

theorem reuseFree_unrolledOperation {before : List Mark} {after : List Mark} :
    (op : Operation) → FencedOperation before op →
      ReuseFree (before ++ segmentedOperation op ++ after) →
      ReuseFree (before ++ unrolledOperation Instruction.marks op ++ after)
  | .instruction i, _, h => h
  | .block count body, hop, h => by
    rw [FencedOperation] at hop
    obtain ⟨hbefore, hbody, hclosed⟩ := hop
    simp only [segmentedOperation, List.append_assoc, List.cons_append, List.nil_append,
      reuseFree_append_boundary] at h
    have hfree := reuseFree_unrolled body hbody h.2.1
    have hreplicate := hfree.replicate hclosed count
    have hblock := (reuseFree_append hbefore).2 ⟨h.1, hreplicate⟩
    rw [unrolledOperation, reuseFree_append (hbefore.append (hclosed.replicate count))]
    exact ⟨hblock, h.2.2⟩

/-- Where no moment reaches across the border of a block, unrolling brings about no reuse. -/
theorem reuseFree_unrolled {before : List Mark} : (ops : List Operation) → Fenced before ops →
    ReuseFree (before ++ segmented ops) → ReuseFree (before ++ unrolled Instruction.marks ops)
  | [], _, h => h
  | op :: rest, hops, h => by
    rw [Fenced] at hops
    rw [segmented, ← List.append_assoc] at h
    rw [unrolled, ← List.append_assoc]
    exact reuseFree_unrolled rest hops.2 (reuseFree_unrolledOperation op hops.1 h)

end

theorem reuseFree_unrolled_iff {c : Circuit} (hsettled : Settled c) (hfenced : Fenced [] c) :
    ReuseFree (unrolled Instruction.marks c) ↔ ReuseFree (segmented c) := by
  constructor
  · exact (milder_segmented c hsettled).reuseFree
  · exact reuseFree_unrolled c hfenced

/-- In an unmixed circuit it does not matter whether instructions are taken piece by piece. -/
theorem unrolled_wholeMarks {c : Circuit} (hchecked : Everywhere Instruction.IsChecked c)
    (hunmixed : Everywhere Instruction.Unmixed c) :
    unrolled Instruction.wholeMarks c = unrolled Instruction.marks c := by
  apply unrolled_congr
  intro i hi
  exact (Instruction.marks_eq_wholeMarks (hchecked i hi) (hunmixed i hi)).symm

end Circuit

/-- Injection without rules reports a reuse where a qubit is used twice between boundaries, the
borders of blocks among them; verification does where one is in the unrolled circuit, unless a
record target stops it before or an instruction mixes pieces with and without classical control.
What injection reports verification reports too, and the other way round where no moment reaches
across the border of a block. -/
theorem reportsReuse_injection_verification {text : String} {c : Circuit}
    (hc : Circuit.parse text = .ok c)
    (hrecords : Verification.RecordsReach 0 (Circuit.unrolled (fun i => [i]) c))
    (immune : OrderedSet Nat) (system : Option (OrderedSet Nat)) :
    (ReportsReuse (noisyCircuit c {} immune system) ↔ ¬ ReuseFree (Circuit.segmented c)) ∧
    (Circuit.Everywhere Instruction.Unmixed c →
      (ReportsReuse (Verification.verify ({} : NoiseModel).allowReuse c) ↔
        ¬ ReuseFree (Circuit.unrolled Instruction.marks c)) ∧
      (ReportsReuse (noisyCircuit c {} immune system) →
        ReportsReuse (Verification.verify ({} : NoiseModel).allowReuse c)) ∧
      (Circuit.Fenced [] c → (ReportsReuse (noisyCircuit c {} immune system) ↔
        ReportsReuse (Verification.verify ({} : NoiseModel).allowReuse c)))) := by
  have hbuilt := Circuit.Built.of_parse hc
  have hinjection := (verdict_noisyCircuit hbuilt.checked immune system).reused_iff trivial
  refine ⟨hinjection, ?_⟩
  intro hunmixed
  have hverification := (Verification.verdict_verify c).reused_iff hrecords
  rw [Circuit.unrolled_wholeMarks hbuilt.checked hunmixed] at hverification
  refine ⟨hverification, ?_, ?_⟩
  · intro h
    rw [hverification]
    intro hfree
    exact hinjection.1 h ((Circuit.milder_segmented c hbuilt.settled).reuseFree hfree)
  · intro hfenced
    apply hinjection.trans (Iff.trans (not_congr _) hverification.symm)
    exact (Circuit.reuseFree_unrolled_iff hbuilt.settled hfenced).symm

/-- A loop whose moments end with its iterations, with feedback and a gate on a busy qubit. -/
def fencedText : String :=
  "M 0\nTICK\nREPEAT 3 \x7b\nCX 0 1 2 3\nX_ERROR(0.1) 1\nCX rec[-1] 2\nH 1\nTICK\n\x7d\nM 1 2\n"

theorem reportsReuse_injection_verification_fenced :
    ∃ c, Circuit.parse fencedText = .ok c ∧
      Verification.RecordsReach 0 (Circuit.unrolled (fun i => [i]) c) ∧
      Circuit.Everywhere Instruction.Unmixed c ∧ Circuit.Fenced [] c ∧
      ReportsReuse (noisyCircuit c {} OrderedMap.empty none) ∧
      ReportsReuse (Verification.verify false c) := by
  have hok : ((Circuit.parse fencedText).toOption.any fun c =>
      decide (Verification.RecordsReach 0 (Circuit.unrolled (fun i => [i]) c)) &&
        decide (Circuit.Everywhere Instruction.Unmixed c) && decide (Circuit.Fenced [] c) &&
        decide (ReportsReuse (noisyCircuit c {} OrderedMap.empty none))) = true := by
    decide +kernel
  cases hc : Circuit.parse fencedText with
  | error e => simp [hc, Except.toOption] at hok
  | ok c =>
    simp only [hc, Except.toOption, Option.any_some, Bool.and_eq_true, decide_eq_true_eq] at hok
    obtain ⟨⟨⟨hrecords, hunmixed⟩, hfenced⟩, hreuse⟩ := hok
    have hagree := reportsReuse_injection_verification hc hrecords OrderedMap.empty none
    exact ⟨c, rfl, hrecords, hunmixed, hfenced, hreuse, (hagree.2 hunmixed).2.1 hreuse⟩

/-- Two iterations of a gate reuse its qubit unless every iteration is a moment of its own. -/
theorem reportsReuse_acrossIterations :
    ¬ ∀ (text : String) (c : Circuit), Circuit.parse text = .ok c →
      Verification.RecordsReach 0 (Circuit.unrolled (fun i => [i]) c) →
      ∀ (immune : OrderedSet Nat) (system : Option (OrderedSet Nat)),
        ReportsReuse (noisyCircuit c {} immune system) ↔
          ReportsReuse (Verification.verify ({} : NoiseModel).allowReuse c) := by
  intro hall
  have hbad : ((Circuit.parse "REPEAT 2 \x7b\n    H 0\n\x7d\n").toOption.any fun c =>
      decide (Verification.RecordsReach 0 (Circuit.unrolled (fun i => [i]) c)) &&
        !decide (ReportsReuse (noisyCircuit c {} OrderedMap.empty none)) &&
        decide (ReportsReuse (Verification.verify ({} : NoiseModel).allowReuse c))) = true := by
    decide +kernel
  cases hc : Circuit.parse "REPEAT 2 \x7b\n    H 0\n\x7d\n" with
  | error e => simp [hc, Except.toOption] at hbad
  | ok c =>
    simp only [hc, Except.toOption, Option.any_some, Bool.and_eq_true, Bool.not_eq_true',
      decide_eq_true_eq, decide_eq_false_iff_not] at hbad
    obtain ⟨⟨hrecords, hpasses⟩, hreuse⟩ := hbad
    exact hpasses ((hall _ c hc hrecords OrderedMap.empty none).2 hreuse)

end StabCircuit
