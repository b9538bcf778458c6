import Mathlib.Algebra.BigOperators.Group.List.Basic
import StabCircuit.Proofs.Meaning.Circuits

/-!
# Paulis controlled by results

A Pauli that is controlled by a result is conjugation by the Pauli when the result is
the negative one, and nothing otherwise.  Measuring a qubit, resetting it to the
positive eigenstate of the measured basis and undoing the reset by a Pauli that
anticommutes with the basis is measuring the qubit.  On different qubits the
measurements may all come first, then the resets, and then the Paulis in any order.
-/

namespace StabCircuit

namespace StateMap

/-- Conjugation by a Pauli on a qubit, which turns the sign of the Paulis that anticommute with
it. -/
def pauli (P : Basis) (q : Nat) : StateMap :=
  onQubit (fun p => if P.clashes p then -1 else 1) (fun p => p) q

/-- Conjugation by a Pauli when a result is the negative one. -/
def correct (P : Basis) (q : Nat) (outcome : Bool) : StateMap := if outcome then pauli P q else 1

theorem supportedOn_correct (P : Basis) (q : Nat) (outcome : Bool) :
    SupportedOn {q} (correct P q outcome) := by
  unfold correct
  split
  · exact supportedOn_onQubit _ _ q
  · exact supportedOn_one _

theorem supportedOn_project_singleton (q : Nat) (b : Basis) (outcome : Bool) :
    SupportedOn {q} (project [(q, b)] outcome) := by
  have hset : ({p | p ∈ [(q, b)].map Prod.fst} : Set Nat) = {q} := by
    ext p
    simp
  rw [← hset]
  exact supportedOn_project _ _

theorem onQubit_apply (w : Option Basis → ℚ) (f : Option Basis → Option Basis) (q : Nat)
    (c : Coefficients) (s : PauliString) :
    onQubit w f q c s = w (s q) * c (Function.update s q (f (s q))) := rfl

theorem correct_eq (P : Basis) (q : Nat) (outcome : Bool) :
    correct P q outcome =
      onQubit (fun p => if outcome && P.clashes p then -1 else 1) (fun p => p) q := by
  cases outcome with
  | true => rfl
  | false =>
    rw [correct, if_neg Bool.false_ne_true, ← substitute_one]
    refine substitute_congr (fun _ => rfl) fun s => ?_
    rw [Function.update_eq_self]

/-- The projection of one qubit keeps what commutes with the basis, averaged with its multiple. -/
theorem project_singleton_apply (q : Nat) (b : Basis) (outcome : Bool) (c : Coefficients)
    (s : PauliString) :
    project [(q, b)] outcome c s =
      (if b.clashes (s q) then 0 else 1 / 2) * c s +
        (if b.clashes (s q) then 0
          else (if outcome then -1 else 1) * phaseSign (b.phase (s q)) / 2) *
          c (Function.update s q (b.times (s q))) := by
  have hcommutes : commutesWith [(q, b)] s = !b.clashes (s q) := by
    cases h : b.clashes (s q) <;> simp [commutesWith, h]
  have hproduct : multiplyFactors [(q, b)] (0, s) =
      (b.phase (s q), Function.update s q (b.times (s q))) := by
    simp [multiplyFactors, multiplyFactor]
  rw [project, LinearMap.add_apply, Pi.add_apply, substitute_apply, substitute_apply, hcommutes,
    hproduct]
  cases b.clashes (s q) <;> rfl

/-- Measuring a qubit, resetting it in the measured basis and turning it by a Pauli that
anticommutes with the basis when the result was negative is measuring it. -/
theorem correct_mul_prepare_mul_project {P b : Basis} (h : P.anticommutes b = true) (q : Nat)
    (outcome : Bool) :
    correct P q outcome * prepare q b * project [(q, b)] outcome = project [(q, b)] outcome := by
  -- Both sides read the coefficients of a string at the identity and at the basis on the qubit.
  have hread : ∀ (p : Option Basis) (d : Option Basis → ℚ),
      (if outcome && P.clashes p then -1 else 1) * (if p = none ∨ p = some b then 1 else 0) *
          (1 / 2 * d none + (if outcome then -1 else 1) / 2 * d (some b)) =
        (if b.clashes p then 0 else 1 / 2) * d p +
          (if b.clashes p then 0 else (if outcome then -1 else 1) * phaseSign (b.phase p) / 2) *
            d (b.times p) := by
    intro p d
    have hP : P ≠ b := by simpa [Basis.anticommutes] using h
    cases p with
    | none => simp [Basis.clashes, Basis.times, Basis.phase, phaseSign]
    | some p =>
      by_cases hp : p = b
      · subst hp
        cases outcome <;>
          simp [Basis.clashes, Basis.anticommutes, Basis.times, Basis.phase, phaseSign,
            Basis.multiply_self, hP] <;> ring
      · simp [Basis.clashes, Basis.anticommutes, hp, Ne.symm hp]
  refine LinearMap.ext fun c => funext fun s => ?_
  have hs : c s = c (Function.update s q (s q)) := by rw [Function.update_eq_self]
  rw [correct_eq, prepare, onQubit_mul, Module.End.mul_apply, onQubit_apply,
    project_singleton_apply, project_singleton_apply, Function.update_idem, Function.update_self,
    hs]
  have hsplit := hread (s q) fun p => c (Function.update s q p)
  simpa [Basis.clashes, Basis.times, Basis.phase, phaseSign] using hsplit

/-! ## Maps on different qubits -/

/-- The composition of maps, the first one applied first. -/
def composed (maps : List StateMap) : StateMap := maps.reverse.prod

theorem composed_cons (F : StateMap) (maps : List StateMap) :
    composed (F :: maps) = composed maps * F := by
  rw [composed, List.reverse_cons, List.prod_append, List.prod_singleton]
  rfl

theorem commute_composed {F : StateMap} {maps : List StateMap} (h : ∀ G ∈ maps, Commute F G) :
    Commute F (composed maps) :=
  Commute.list_prod_right _ _ fun G hG => h G (List.mem_reverse.1 hG)

section Blocks

variable {ι : Type} {items : List ι} {qubit : ι → Nat}

/-- Maps of a list of different qubits commute. -/
theorem pairwise_commute (hnodup : (items.map qubit).Nodup) {C : ι → StateMap}
    (hC : ∀ i, SupportedOn {qubit i} (C i)) : (items.map C).Pairwise Commute := by
  rw [List.pairwise_map]
  refine (List.pairwise_map.1 hnodup).imp fun {i j} hne => ?_
  refine (hC i).commute ?_ (hC j)
  intro q hi hj
  exact hne (hi.symm.trans hj)

/-- Maps on different qubits compose in any order. -/
theorem composed_perm {order : List ι} (hperm : order.Perm items)
    (hnodup : (items.map qubit).Nodup) {C : ι → StateMap}
    (hC : ∀ i, SupportedOn {qubit i} (C i)) :
    composed (order.map C) = composed (items.map C) := by
  have hreversed : (order.map C).reverse.Perm (items.map C).reverse :=
    (List.reverse_perm _).trans ((hperm.map C).trans (List.reverse_perm _).symm)
  have hcommute := pairwise_commute ((hperm.map qubit).nodup_iff.2 hnodup) hC
  refine hreversed.prod_eq' (List.pairwise_reverse.2 ?_)
  exact hcommute.imp Commute.symm

/-- Three blocks of maps on different qubits compose to the first block when they do on every
qubit. -/
theorem composed_blocks (hnodup : (items.map qubit).Nodup) {A B C : ι → StateMap}
    (hA : ∀ i, SupportedOn {qubit i} (A i)) (hB : ∀ i, SupportedOn {qubit i} (B i))
    (hC : ∀ i, SupportedOn {qubit i} (C i)) (h : ∀ i ∈ items, C i * B i * A i = A i) :
    composed (items.map C) * (composed (items.map B) * composed (items.map A)) =
      composed (items.map A) := by
  induction items with
  | nil => simp [composed]
  | cons i items ih =>
    rw [List.map_cons, List.nodup_cons] at hnodup
    rw [List.forall_mem_cons] at h
    have happart : ∀ {F G : ι → StateMap}, (∀ j, SupportedOn {qubit j} (F j)) →
        (∀ j, SupportedOn {qubit j} (G j)) →
        F i * composed (items.map G) = composed (items.map G) * F i := by
      intro F G hF hG
      refine commute_composed fun K hK => ?_
      obtain ⟨j, hj, rfl⟩ := List.mem_map.1 hK
      refine (hF i).commute ?_ (hG j)
      intro q hi hq
      exact hnodup.1 (List.mem_map.2 ⟨j, hj, hq.symm.trans hi⟩)
    simp only [List.map_cons, composed_cons]
    -- The maps on the first qubit move past the blocks on the others, which meet each other.
    calc
      _ = composed (items.map C) * (C i * composed (items.map B)) *
          (B i * composed (items.map A)) * A i := by simp only [mul_assoc]
      _ = composed (items.map C) * composed (items.map B) * (C i * composed (items.map A)) *
          B i * A i := by
        rw [happart hC hB, happart hB hA]
        simp only [mul_assoc]
      _ = composed (items.map C) * (composed (items.map B) * composed (items.map A)) *
          (C i * B i * A i) := by
        rw [happart hC hA]
        simp only [mul_assoc]
      _ = composed (items.map A) * A i := by rw [ih hnodup.2 h.2, h.1]

end Blocks

end StateMap

/-! ## Meanings -/

/-- The interpretation in which a Pauli controlled by a result is conjugation by the Pauli when the
result is the negative one. -/
def Interpretation.withFeedback (I : Interpretation) (outcome : Nat → Bool) : Interpretation :=
  { I with
    piece := fun recorded g numbers group =>
      match g, group with
      | .controlled .z P, [.record offset, .qubit q] =>
        StateMap.correct P q (outcome ((recorded : Int) + offset).toNat)
      | _, _ => I.piece recorded g numbers group }

namespace Action

open StateMap

/-- Measurements of single qubits, one result each. -/
def measurements (factors : List (Nat × Basis)) : List Action :=
  factors.map fun factor => .measure [factor]

/-- Resets of qubits. -/
def resets (factors : List (Nat × Basis)) : List Action :=
  factors.map fun factor => .prepare factor.1 factor.2

/-- A Pauli that anticommutes with a basis. -/
def correction : Basis → Basis
  | .x => .z
  | .y | .z => .x

theorem anticommutes_correction (b : Basis) : (correction b).anticommutes b = true := by
  cases b <;> rfl

/-- The Paulis that undo resets, each controlled by the result for its qubit among those of
`factors`, which are the latest. -/
def corrections (factors order : List (Nat × Basis)) : List Action :=
  order.map fun factor => .uninterpreted (.controlled .z (correction factor.2)) []
    [.record ((factors.idxOf factor : Int) - factors.length), .qubit factor.1]

theorem meaning_measurements (I : Interpretation) (outcome : Nat → Bool) (recorded : Nat)
    {factors : List (Nat × Basis)} (hnodup : factors.Nodup) :
    meaning I outcome recorded (measurements factors) =
      composed (factors.map fun factor =>
        project [factor] (outcome (recorded + factors.idxOf factor))) := by
  induction factors generalizing recorded with
  | nil => rfl
  | cons factor factors ih =>
    rw [List.nodup_cons] at hnodup
    have hcons : measurements (factor :: factors) = .measure [factor] :: measurements factors := rfl
    rw [hcons, meaning, ih _ hnodup.2, List.map_cons, composed_cons, List.idxOf_cons_self]
    congr 1
    congr 1
    apply List.map_congr_left
    intro other hother
    have hne : factor ≠ other := by
      rintro rfl
      exact hnodup.1 hother
    rw [List.idxOf_cons_ne _ hne, results, Nat.add_assoc, Nat.add_comm 1]

theorem meaning_of_quiet (I : Interpretation) (outcome : Nat → Bool) (recorded : Nat)
    {xs : List Action} (h : ∀ x ∈ xs, x.results = 0) :
    meaning I outcome recorded xs = composed (xs.map (map I outcome recorded)) := by
  induction xs with
  | nil => rfl
  | cons x xs ih =>
    rw [List.forall_mem_cons] at h
    rw [meaning, h.1, Nat.add_zero, ih h.2, List.map_cons, composed_cons]

/-- A correction is conjugation by its Pauli when the result for its qubit is the negative one. -/
theorem map_correction (I : Interpretation) (outcome : Nat → Bool) (recorded : Nat)
    (factors : List (Nat × Basis)) (factor : Nat × Basis) :
    map (I.withFeedback outcome) outcome (recorded + factors.length)
        (.uninterpreted (.controlled .z (correction factor.2)) []
          [.record ((factors.idxOf factor : Int) - factors.length), .qubit factor.1]) =
      correct (correction factor.2) factor.1 (outcome (recorded + factors.idxOf factor)) := by
  have hindex : (((recorded + factors.length : Nat) : Int) +
      ((factors.idxOf factor : Int) - factors.length)).toNat = recorded + factors.idxOf factor := by
    omega
  rw [← hindex]
  rfl

/-- Measuring different qubits, resetting them and undoing the resets with the results is
measuring them. -/
theorem meaning_corrections (I : Interpretation) (outcome : Nat → Bool) (recorded : Nat)
    {factors order : List (Nat × Basis)} (hnodup : (factors.map Prod.fst).Nodup)
    (hperm : order.Perm factors) :
    meaning (I.withFeedback outcome) outcome recorded
        (measurements factors ++ resets factors ++ corrections factors order) =
      meaning (I.withFeedback outcome) outcome recorded (measurements factors) := by
  have hmeasured : resultCount (measurements factors) = factors.length := by
    simp [resultCount, measurements, results, Function.comp_def]
  have hreset : resultCount (resets factors) = 0 := by
    simp [resultCount, resets, results, Function.comp_def]
  have hquiet : ∀ x ∈ corrections factors order, x.results = 0 := by
    intro x hx
    obtain ⟨factor, -, rfl⟩ := List.mem_map.1 hx
    rfl
  have hresets : ∀ x ∈ resets factors, x.results = 0 := by
    intro x hx
    obtain ⟨factor, -, rfl⟩ := List.mem_map.1 hx
    rfl
  rw [meaning_append, meaning_append, resultCount_append, hmeasured, hreset, Nat.add_zero,
    meaning_measurements _ _ _ hnodup.of_map, meaning_of_quiet _ _ _ hquiet,
    meaning_of_quiet _ _ _ hresets, resets, corrections, List.map_map, List.map_map]
  have hcorrect : List.map (Action.map (I.withFeedback outcome) outcome
      (recorded + factors.length) ∘ fun factor : Nat × Basis =>
        .uninterpreted (.controlled .z (correction factor.2)) []
          [.record ((factors.idxOf factor : Int) - factors.length), .qubit factor.1]) order =
      order.map fun factor => correct (correction factor.2) factor.1
        (outcome (recorded + factors.idxOf factor)) :=
    List.map_congr_left fun factor _ => map_correction I outcome recorded factors factor
  have hsupported := fun factor : Nat × Basis =>
    supportedOn_correct (correction factor.2) factor.1 (outcome (recorded + factors.idxOf factor))
  rw [hcorrect, composed_perm hperm hnodup hsupported]
  refine composed_blocks hnodup (fun factor => supportedOn_project_singleton _ _ _)
    (fun factor => supportedOn_prepare _ _) hsupported fun factor _ => ?_
  exact correct_mul_prepare_mul_project (anticommutes_correction factor.2) _ _

end Action

end StabCircuit
