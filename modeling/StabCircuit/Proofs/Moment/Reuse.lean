import Mathlib.Data.List.Induction
import Mathlib.Data.List.Nodup
import StabCircuit.Pass.Verification
import StabCircuit.Proofs.Circuit.Pieces

/-!
# Reuse of qubits within a moment

A circuit is seen as a list of marks: uses of qubits and the boundaries between
moments.  It is free of reuse when a boundary stands between any two uses of one
qubit, which can be told from left to right by keeping the uses of the open
moment.
-/

namespace StabCircuit

/-- What counts for moments. -/
inductive Mark where
  /-- A moment ends and the next begins. -/
  | boundary
  /-- An operation uses a qubit. -/
  | use (qubit : Nat)
deriving DecidableEq

namespace Mark

/-- A boundary stands between any two uses of a qubit. -/
def ReuseFree (ms : List Mark) : Prop :=
  ∀ (q : Nat) (before between after : List Mark),
    ms = before ++ use q :: between ++ use q :: after → boundary ∈ between

/-- The uses of the open moment after one more mark. -/
def openAfter (used : List Nat) : Mark → List Nat
  | boundary => []
  | use q => q :: used

/-- The uses since the last boundary, the latest first. -/
def openUses (ms : List Mark) : List Nat := ms.foldl openAfter []

/-- Nothing was used since the last boundary. -/
def Closed (ms : List Mark) : Prop := openUses ms = []

instance : DecidablePred Closed := fun _ => inferInstanceAs (Decidable (_ = _))

variable {ms xs ys us vs : List Mark} {q : Nat}

/-! ## One more mark -/

theorem openUses_concat (ms : List Mark) (m : Mark) :
    openUses (ms ++ [m]) = openAfter (openUses ms) m := by
  rw [openUses, List.foldl_append]
  rfl

theorem closed_nil : Closed [] := rfl

theorem closed_concat_boundary (ms : List Mark) : Closed (ms ++ [boundary]) :=
  openUses_concat ms boundary

/-- The uses of the open moment are those with no boundary after them. -/
theorem mem_openUses_iff :
    q ∈ openUses ms ↔ ∃ before between, ms = before ++ use q :: between ∧ boundary ∉ between := by
  induction ms using List.reverseRecOn with
  | nil => simp [openUses]
  | append_singleton ms m ih =>
    rw [openUses_concat]
    constructor
    · intro h
      cases m with
      | boundary => simp [openAfter] at h
      | use p =>
        rcases List.mem_cons.1 h with rfl | h
        · exact ⟨ms, [], rfl, by simp⟩
        · obtain ⟨before, between, rfl, hbetween⟩ := ih.1 h
          exact ⟨before, between ++ [use p], by simp, by simpa using hbetween⟩
    · rintro ⟨before, between, heq, hbetween⟩
      rcases List.eq_nil_or_concat' between with rfl | ⟨between, m', rfl⟩
      · obtain ⟨-, hm⟩ := List.append_inj' heq rfl
        cases hm
        exact List.mem_cons_self
      · rw [← List.cons_append, ← List.append_assoc] at heq
        obtain ⟨rfl, hm⟩ := List.append_inj' heq rfl
        cases hm
        cases m with
        | boundary => simp at hbetween
        | use p =>
          refine List.mem_cons_of_mem _ (ih.2 ⟨before, between, rfl, ?_⟩)
          simpa using hbetween

theorem ReuseFree.of_append_left (h : ReuseFree (xs ++ ys)) : ReuseFree xs := by
  intro q before between after heq
  apply h q before between (after ++ ys)
  simp [heq]

theorem ReuseFree.of_append_right (h : ReuseFree (xs ++ ys)) : ReuseFree ys := by
  intro q before between after heq
  apply h q (xs ++ before) between after
  simp [heq]

theorem reuseFree_nil : ReuseFree [] := by
  intro q before between after heq
  simp at heq

theorem reuseFree_of_nodup (h : ms.Nodup) : ReuseFree ms := by
  intro q before between after heq
  rw [heq] at h
  have hdisjoint := (List.nodup_append.1 h).2.2
  exact absurd rfl (hdisjoint (use q) (by simp) (use q) (by simp))

/-- One more mark brings about a reuse exactly when it uses a qubit of the open moment. -/
theorem reuseFree_concat {m : Mark} :
    ReuseFree (ms ++ [m]) ↔ ReuseFree ms ∧ ∀ q, m = use q → q ∉ openUses ms := by
  constructor
  · intro h
    refine ⟨h.of_append_left, ?_⟩
    rintro q rfl hmem
    obtain ⟨before, between, rfl, hbetween⟩ := mem_openUses_iff.1 hmem
    exact hbetween (h q before between [] rfl)
  · rintro ⟨hms, hm⟩ q before between after heq
    rcases List.eq_nil_or_concat' after with rfl | ⟨after, m', rfl⟩
    · obtain ⟨rfl, hlast⟩ := List.append_inj' heq rfl
      by_contra hbetween
      exact hm q (List.singleton_inj.1 hlast) (mem_openUses_iff.2 ⟨before, between, rfl, hbetween⟩)
    · rw [← List.cons_append, ← List.append_assoc] at heq
      obtain ⟨rfl, -⟩ := List.append_inj' heq rfl
      exact hms q before between after rfl

theorem reuseFree_concat_boundary : ReuseFree (ms ++ [boundary]) ↔ ReuseFree ms := by
  simp [reuseFree_concat]

theorem reuseFree_concat_use : ReuseFree (ms ++ [use q]) ↔ ReuseFree ms ∧ q ∉ openUses ms := by
  simp [reuseFree_concat]

/-! ## Marks one after another -/

theorem openUses_append (h : Closed xs) (ys : List Mark) : openUses (xs ++ ys) = openUses ys := by
  rw [openUses, List.foldl_append]
  exact congrArg (ys.foldl openAfter) h

theorem Closed.append (hxs : Closed xs) (hys : Closed ys) : Closed (xs ++ ys) :=
  (openUses_append hxs ys).trans hys

/-- After a boundary the count begins anew. -/
theorem reuseFree_append (h : Closed xs) : ReuseFree (xs ++ ys) ↔ ReuseFree xs ∧ ReuseFree ys := by
  induction ys using List.reverseRecOn with
  | nil => simp [reuseFree_nil]
  | append_singleton ys m ih =>
    rw [← List.append_assoc, reuseFree_concat, reuseFree_concat, ih, openUses_append h, and_assoc]

theorem reuseFree_append_boundary :
    ReuseFree (xs ++ boundary :: ys) ↔ ReuseFree xs ∧ ReuseFree ys := by
  rw [← List.singleton_append, ← List.append_assoc, reuseFree_append (closed_concat_boundary xs),
    reuseFree_concat_boundary]

theorem Closed.replicate (h : Closed xs) (count : Nat) :
    Closed (List.replicate count xs).flatten := by
  induction count with
  | zero => exact closed_nil
  | succ count ih =>
    rw [List.replicate_succ, List.flatten_cons]
    exact h.append ih

theorem ReuseFree.replicate (h : ReuseFree xs) (hclosed : Closed xs) (count : Nat) :
    ReuseFree (List.replicate count xs).flatten := by
  induction count with
  | zero => exact reuseFree_nil
  | succ count ih =>
    rw [List.replicate_succ, List.flatten_cons]
    exact (reuseFree_append hclosed).2 ⟨h, ih⟩

/-! ## Fewer uses -/

/-- The first marks stand for the second anywhere without bringing about a reuse. -/
def Milder (xs ys : List Mark) : Prop :=
  ∀ before after, ReuseFree (before ++ ys ++ after) → ReuseFree (before ++ xs ++ after)

theorem Milder.refl (xs : List Mark) : Milder xs xs := by
  intro before after h
  exact h

theorem Milder.of_eq (h : xs = ys) : Milder xs ys := by
  rw [h]
  exact .refl ys

theorem Milder.trans (hxy : Milder xs ys) (hyz : Milder ys us) : Milder xs us := by
  intro before after h
  exact hxy before after (hyz before after h)

theorem Milder.append (hxs : Milder xs ys) (hus : Milder us vs) :
    Milder (xs ++ us) (ys ++ vs) := by
  intro before after h
  have hleft := hxs before (vs ++ after) (by simpa using h)
  have hright := hus (before ++ xs) after (by simpa using hleft)
  simpa using hright

theorem Milder.replicate (h : Milder xs ys) (count : Nat) :
    Milder (List.replicate count xs).flatten (List.replicate count ys).flatten := by
  induction count with
  | zero => exact .refl _
  | succ count ih =>
    rw [List.replicate_succ, List.replicate_succ, List.flatten_cons, List.flatten_cons]
    exact h.append ih

theorem Milder.reuseFree (h : Milder xs ys) (hys : ReuseFree ys) : ReuseFree xs := by
  have hplain := h [] [] (by simpa using hys)
  simpa using hplain

/-- Where nothing is open, nothing is open with fewer uses. -/
theorem Milder.closed (h : Milder xs ys) (hys : ReuseFree ys) (hclosed : Closed ys) :
    Closed xs := by
  apply List.eq_nil_iff_forall_not_mem.2
  intro q
  -- a use of any qubit may follow `ys`, so it may follow `xs`
  have hfollow : ReuseFree ([] ++ ys ++ [use q]) := by
    rw [List.nil_append, reuseFree_concat_use, hclosed]
    exact ⟨hys, List.not_mem_nil⟩
  have hxs := h [] [use q] hfollow
  rw [List.nil_append, reuseFree_concat_use] at hxs
  exact hxs.2

theorem Milder.flatMap {α : Type} {f g : α → List Mark} {as : List α}
    (h : ∀ a ∈ as, Milder (f a) (g a)) : Milder (as.flatMap f) (as.flatMap g) := by
  induction as with
  | nil => exact .refl _
  | cons a as ih =>
    rw [List.forall_mem_cons] at h
    exact h.1.append (ih h.2)

theorem compositional_milder : Circuit.Compositional Milder where
  refl := Milder.refl
  trans := Milder.trans
  append := Milder.append

/-- A boundary may stand for any marks. -/
theorem milder_boundary (ys : List Mark) : Milder [boundary] ys := by
  intro before after h
  rw [List.append_assoc, List.singleton_append, reuseFree_append_boundary]
  rw [List.append_assoc] at h
  exact ⟨h.of_append_left, h.of_append_right.of_append_right⟩

theorem openAfter_subset {used used' : List Nat} (h : used ⊆ used') (m : Mark) :
    openAfter used m ⊆ openAfter used' m := by
  cases m with
  | boundary => exact List.Subset.refl _
  | use q => exact List.cons_subset_cons q h

theorem milder_nil_use (q : Nat) : Milder [] [use q] := by
  intro before after
  rw [List.append_nil]
  -- what is open without the use is open with it, so no later mark is refused
  have hstep : ReuseFree (before ++ [use q] ++ after) → ReuseFree (before ++ after) ∧
      openUses (before ++ after) ⊆ openUses (before ++ [use q] ++ after) := by
    induction after using List.reverseRecOn with
    | nil =>
      intro h
      rw [List.append_nil] at h
      rw [List.append_nil, List.append_nil, openUses_concat]
      exact ⟨h.of_append_left, List.subset_cons_self _ _⟩
    | append_singleton after m ih =>
      intro h
      rw [← List.append_assoc, reuseFree_concat] at h
      obtain ⟨hfree, hsubset⟩ := ih h.1
      rw [← List.append_assoc, ← List.append_assoc, openUses_concat, openUses_concat,
        reuseFree_concat]
      refine ⟨⟨hfree, ?_⟩, openAfter_subset hsubset m⟩
      intro p hp hmem
      exact h.2 p hp (hsubset hmem)
  intro h
  exact (hstep h).1

/-- Uses may be left out. -/
theorem milder_nil_map_use (qubits : List Nat) : Milder [] (qubits.map use) := by
  induction qubits with
  | nil => exact .refl _
  | cons q qubits ih => exact (milder_nil_use q).append ih

end Mark

/-! ## The marks of instructions -/

namespace Instruction

open Mark

/-- The marks of a piece of an instruction: the qubits of a piece that is no annotation, no error
channel and not classically controlled are used. -/
def markPiece (g : Gate) (_numbers : List Int) (group : List Target) : List Mark :=
  if g = .tick then [boundary]
  else if g.kind.isMetadata || g.kind.isNoise || group.any Target.isClassical then []
  else (group.filterMap Target.qubit?).map use

/-- The marks of an instruction, piece by piece. -/
def marks (i : Instruction) : List Mark := i.shown markPiece

/-- The marks of an instruction that is left out as a whole when it is classically controlled. -/
def wholeMarks (i : Instruction) : List Mark :=
  if i.isTick then [boundary]
  else if Verification.isExempt i then []
  else i.qubits.map use

theorem markPiece_of_operation {g : Gate} (h : (g.kind.isMetadata || g.kind.isNoise) = false)
    (numbers : List Int) {group : List Target} (hgroup : group.any Target.isClassical = false) :
    markPiece g numbers group = (group.filterMap Target.qubit?).map use := by
  have hg : g ≠ .tick := by
    rintro rfl
    cases h
  rw [markPiece, if_neg hg, h, hgroup]
  rfl

/-- Either all pieces of an instruction are classically controlled, or none is. -/
def Unmixed (i : Instruction) : Prop :=
  i.isClassicallyControlled = true → ∀ group ∈ i.targetGroups, group.any Target.isClassical = true

instance : DecidablePred Unmixed := fun _ => inferInstanceAs (Decidable (_ → _))

theorem isTick_eq {i : Instruction} {g : Gate} (hname : i.name = g.name) :
    i.isTick = decide (g = .tick) := by
  rw [isTick, hname, Bool.eq_iff_iff, beq_iff_eq, decide_eq_true_eq]
  constructor
  · intro h
    exact Gate.name_injective h
  · intro h
    rw [h]

theorem wholeMarks_of_ne_tick {i : Instruction} {g : Gate} (hname : i.name = g.name)
    (hg : g ≠ .tick) :
    i.wholeMarks = if Verification.isExempt i then [] else i.qubits.map use := by
  have htick : i.isTick = false := by rw [isTick_eq hname, decide_eq_false hg]
  simp [wholeMarks, htick]

theorem wholeMarks_of_isExempt {i : Instruction} {g : Gate} (hname : i.name = g.name)
    (hg : g ≠ .tick) (h : Verification.isExempt i = true) : i.wholeMarks = [] := by
  rw [wholeMarks_of_ne_tick hname hg, if_pos h]

theorem marks_of_isTick {i : Instruction} (hi : i.IsChecked) (h : i.isTick = true) :
    i.marks = [boundary] := by
  obtain ⟨g, hname, hgate, hkind, -⟩ := hi.exists_gate
  have hg : g = .tick := by simpa [isTick_eq hname] using h
  subst hg
  have hgroups : i.targetGroups = [i.targets] := by
    rw [targetGroups, hkind]
    rfl
  rw [marks, shown_of_gate? markPiece hgate, hgroups, List.flatMap_singleton, markPiece, if_pos rfl]

/-- An instruction that is not mixed has the same marks as a whole. -/
theorem marks_eq_wholeMarks {i : Instruction} (hi : i.IsChecked) (hunmixed : i.Unmixed) :
    i.marks = i.wholeMarks := by
  obtain ⟨g, hname, hgate, hkind, -⟩ := hi.exists_gate
  by_cases hg : g = .tick
  · have htick : i.isTick = true := by rw [isTick_eq hname, decide_eq_true hg]
    rw [marks_of_isTick hi htick, wholeMarks, if_pos htick]
  rw [wholeMarks_of_ne_tick hname hg, marks, shown_of_gate? markPiece hgate]
  have hnone : (∀ group ∈ i.targetGroups, (g.kind.isMetadata || g.kind.isNoise ||
      group.any Target.isClassical) = true) →
      i.targetGroups.flatMap (markPiece g (i.args.map Scalar.position)) = [] := by
    intro hall
    apply List.flatMap_eq_nil_iff.2
    intro group hgroup
    rw [markPiece, if_neg hg, if_pos (hall group hgroup)]
  by_cases hexempt : (g.kind.isMetadata || g.kind.isNoise) = true
  · rw [if_pos (by simp [Verification.isExempt, hkind, hexempt]), hnone (by simp [hexempt])]
  have hplain : (i.kind.isMetadata || i.kind.isNoise) = false := by
    rw [hkind]
    simpa using hexempt
  by_cases hclassical : i.isClassicallyControlled = true
  · rw [if_pos (by simp [Verification.isExempt, hclassical]), hnone]
    intro group hgroup
    simp [hunmixed hclassical group hgroup]
  · have hmetadata : i.kind ≠ .metadata := by
      intro h
      simp [h, GateKind.isMetadata] at hplain
    have htargets := isClassical_eq_false (by simpa using hclassical) hmetadata
    rw [if_neg (by simp [Verification.isExempt, hplain, hclassical]),
      ← flatMap_qubit?_targetGroups, List.map_flatMap]
    apply List.flatMap_congr
    intro group hgroup
    have hgroup' : group.any Target.isClassical = false := by
      rw [List.any_eq_false]
      intro t ht
      simp [htargets t (mem_of_mem_targetGroups hgroup t ht)]
    exact markPiece_of_operation (by simpa using hexempt) _ hgroup'

/-- The marks of an instruction as a whole are its marks piece by piece, or fewer. -/
theorem milder_wholeMarks {i : Instruction} (hi : i.IsChecked) : Milder i.wholeMarks i.marks := by
  by_cases htick : i.isTick = true
  · rw [marks_of_isTick hi htick, wholeMarks, if_pos htick]
    exact .refl _
  by_cases hexempt : Verification.isExempt i = true
  · obtain ⟨g, hname, hgate, -, -⟩ := hi.exists_gate
    have hg : g ≠ .tick := by simpa [isTick_eq hname] using htick
    rw [wholeMarks_of_isExempt hname hg hexempt, marks, shown_of_gate? markPiece hgate]
    have hpieces : Milder (i.targetGroups.flatMap fun _ => [])
        (i.targetGroups.flatMap (markPiece g (i.args.map Scalar.position))) := by
      apply Milder.flatMap
      intro group _
      rw [markPiece, if_neg hg]
      split
      · exact .refl _
      · exact milder_nil_map_use _
    rwa [List.flatMap_eq_nil_iff.2 fun _ _ => rfl] at hpieces
  · apply Milder.of_eq (marks_eq_wholeMarks hi _).symm
    intro hclassical
    simp [Verification.isExempt, hclassical] at hexempt

theorem isExempt_join {last next : Instruction} (hkind : next.kind = last.kind) :
    Verification.isExempt (last.join next) =
      (Verification.isExempt last || Verification.isExempt next) := by
  have htargets : (last.join next).targets = last.targets ++ next.targets := rfl
  simp only [Verification.isExempt, isClassicallyControlled, kind_join, hkind, htargets,
    List.any_append]
  cases last.kind.isMetadata <;> cases last.kind.isNoise <;> simp [Bool.and_or_distrib_left]

/-- Instructions that merge use no more qubits than one after another. -/
theorem milder_wholeMarks_join {last next : Instruction} (hlast : last.IsChecked)
    (hnext : next.IsChecked) (h : Circuit.fuses last next = true) :
    Milder (last.join next).wholeMarks (last.wholeMarks ++ next.wholeMarks) := by
  obtain ⟨g, hfusable, hname, hname', -⟩ := exists_gate_of_fuses hlast hnext h
  have hg : g ≠ .tick := by
    rintro rfl
    simp [Gate.isFusable, Gate.kind] at hfusable
  have hkind : next.kind = last.kind := by
    rw [kind_of_gate? (gate?_of_name hname), kind_of_gate? (gate?_of_name hname')]
  have hjoin : (last.join next).name = g.name := hname
  rw [wholeMarks_of_ne_tick hjoin hg, wholeMarks_of_ne_tick hname hg,
    wholeMarks_of_ne_tick hname' hg]
  by_cases hexempt : Verification.isExempt (last.join next) = true
  · rw [if_pos hexempt]
    have huses : ∀ i : Instruction,
        Milder [] (if Verification.isExempt i then [] else i.qubits.map use) := by
      intro i
      split
      · exact .refl _
      · exact milder_nil_map_use _
    exact (huses last).append (huses next)
  · have hparts := hexempt
    rw [isExempt_join hkind, Bool.or_eq_true, not_or] at hparts
    rw [if_neg hexempt, if_neg hparts.1, if_neg hparts.2, ← List.map_append]
    exact .of_eq (by simp [qubits, join])

end Instruction

end StabCircuit
