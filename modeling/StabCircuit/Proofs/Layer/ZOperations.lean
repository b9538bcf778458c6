import StabCircuit.Proofs.Circuit.Parsed
import StabCircuit.Proofs.Layer.ZNormalForm

/-!
# Operations in the Z basis

What is left after the change to the Z basis: resets to zero, measurements of Z and
of products of Z, and pairs of qubits that interact through Z or are exchanged.
Layers are brought to this form and keep it when they are fused and written.
Instructions with a classical control are carried verbatim, whatever else they hold,
so that the result has this form when they had it from the start.
-/

namespace StabCircuit

/-! ## The Z form of an instruction -/

/-- The two-qubit gates that interact through Z on both sides or exchange the qubits. -/
def Gate.zPairs : List Gate := [.controlled .z .z, .czSwap, .swap, .iswap]

/-- Resets and measurements are in the Z basis, factors of measured products are Z, and gates on
two qubits are among `Gate.zPairs`.  Pairs with a classical bit may have any gate. -/
structure Gate.ActsInZ (g : Gate) (targets : List Target) : Prop where
  reset : g.resetBasis?.isSome = true → g = .reset .z
  measure : g.measuredBasis?.isSome = true → g = .measure .z
  product : g.kind = .measureProduct → ∀ t ∈ targets, ∀ b ∈ t.basis?, b = .z
  pair : g.kind = .clifford2 → ∀ pair ∈ Target.pairs targets,
    (∀ t ∈ pair, t.qubit?.isSome = true) → g ∈ Gate.zPairs

instance (g : Gate) (targets : List Target) : Decidable (g.ActsInZ targets) :=
  have hproduct : (∀ t ∈ targets, t.basis?.all (· == .z) = true) ↔
      ∀ t ∈ targets, ∀ b ∈ t.basis?, b = .z := by
    simp [Option.all_eq_true]
  decidable_of_iff
    ((g.resetBasis?.isSome = true → g = .reset .z) ∧
      (g.measuredBasis?.isSome = true → g = .measure .z) ∧
      (g.kind = .measureProduct → ∀ t ∈ targets, t.basis?.all (· == .z) = true) ∧
      (g.kind = .clifford2 → ∀ pair ∈ Target.pairs targets,
        (∀ t ∈ pair, t.qubit?.isSome = true) → g ∈ Gate.zPairs))
    ⟨fun h => ⟨h.1, h.2.1, fun hkind => hproduct.1 (h.2.2.1 hkind), h.2.2.2⟩,
      fun h => ⟨h.1, h.2, fun hkind => hproduct.2 (h.3 hkind), h.4⟩⟩

theorem Gate.ActsInZ.append {g : Gate} {s t : List Target} (hs : g.ActsInZ s) (ht : g.ActsInZ t)
    (hfault : Instruction.targetFault? g s = none) : g.ActsInZ (s ++ t) where
  reset := hs.reset
  measure := hs.measure
  product hkind := List.forall_mem_append.2 ⟨hs.product hkind, ht.product hkind⟩
  pair hkind := by
    have heven : s.length % 2 = 0 := by simpa [Instruction.targetFault?, hkind] using hfault
    rw [Target.pairs_append heven]
    exact List.forall_mem_append.2 ⟨hs.pair hkind, ht.pair hkind⟩

namespace Instruction

/-- The instruction is in the Z form of its gate. -/
def ActsInZ (i : Instruction) : Prop := ∀ g ∈ i.gate?, g.ActsInZ i.targets

instance : DecidablePred ActsInZ := fun i =>
  inferInstanceAs (Decidable (∀ g ∈ i.gate?, g.ActsInZ i.targets))

theorem actsInZ_of_name {i : Instruction} {g : Gate} (hname : i.name = g.name)
    (h : g.ActsInZ i.targets) : i.ActsInZ := by
  intro g' hg'
  obtain rfl : g = g' := Option.some.inj ((gate?_of_name hname).symm.trans hg')
  exact h

/-- A checked instruction in Z form. -/
def IsZForm (i : Instruction) : Prop := i.IsChecked ∧ i.ActsInZ

theorem joinable_isZForm : Circuit.Joinable IsZForm where
  checked _ h := h.1
  join last next hlast hnext hfuses := by
    refine ⟨hlast.1.join hnext.1 hfuses, ?_⟩
    obtain ⟨g, -, hname, hname', hfault, -⟩ := exists_gate_of_fuses hlast.1 hnext.1 hfuses
    refine @actsInZ_of_name (last.join next) g hname (Gate.ActsInZ.append ?_ ?_ hfault)
    · exact hlast.2 g (gate?_of_name hname)
    · exact hnext.2 g (gate?_of_name hname')

/-- Gates that neither reset, measure nor act on pairs are in Z form on any targets. -/
theorem actsInZ_of_kind {i : Instruction} {g : Gate} (hg : i.gate? = some g)
    (hkind : g.kind.isCollapsing = false ∧ g.kind ≠ .clifford2) : i.ActsInZ := by
  intro g' hg'
  obtain rfl : g = g' := Option.some.inj (hg.symm.trans hg')
  constructor
  · intro h
    cases g <;> simp [Gate.resetBasis?, Gate.kind, GateKind.isCollapsing] at h hkind
  · intro h
    cases g <;> simp [Gate.measuredBasis?, Gate.kind, GateKind.isCollapsing] at h hkind
  · intro h
    simp [h, GateKind.isCollapsing] at hkind
  · intro h
    exact absurd h hkind.2

theorem isZForm_tick : Instruction.tick.IsZForm :=
  ⟨isChecked_tick, actsInZ_of_kind (gate?_of_name rfl : _ = some Gate.tick) (by decide)⟩

end Instruction

/-! ## The Z form of a layer -/

namespace Layer

/-- The operations of a layer are in the Z basis and the instructions that it carries in Z form. -/
def IsZForm : Layer → Prop
  | annotations instructions | feedback instructions | noise instructions =>
    ∀ i ∈ instructions, i.IsZForm
  | interact interactions | interactSwap interactions => ∀ i ∈ interactions, i.isZ = true
  | reset resets => ∀ entry ∈ resets, entry.2 = .z
  | measure targets => ∀ t ∈ targets, t.basis = .z
  | product products => ∀ p ∈ products, ∀ factor ∈ p.factors, factor.2 = .z
  | _ => True

/-- The instructions that a layer carries verbatim are in Z form. -/
def CarriesZForm : Layer → Prop
  | annotations instructions | feedback instructions | noise instructions =>
    ∀ i ∈ instructions, i.IsZForm
  | _ => True

theorem isZ_exchangeQubits (i : Interaction) : i.exchangeQubits.isZ = true ↔ i.isZ = true := by
  rw [Interaction.exchangeQubits, isZ_make, Interaction.isZ, Bool.and_eq_true, beq_iff_eq,
    beq_iff_eq]

theorem stable_isZForm : Stable IsZForm where
  vacuous l hl hvacuous := by
    cases l <;> simp_all [IsZForm, isVacuous]
  absorb l next joined h := by
    cases (absorbed_of_absorb? h).1 <;> simp [IsZForm, or_imp, forall_and]
  rotation _ := trivial
  shift _ := trivial
  interactSwap _ _ _ := by simp [IsZForm]
  swapInteract _ _ _ := by simp [IsZForm, isZ_exchangeQubits]

theorem stable_carriesZForm : Stable CarriesZForm where
  vacuous l hl hvacuous := by
    cases l <;> simp_all [CarriesZForm, isVacuous]
  absorb l next joined h := by
    cases (absorbed_of_absorb? h).1 <;> simp [CarriesZForm, or_imp, forall_and]
  rotation _ := trivial
  shift _ := trivial
  interactSwap _ _ _ := by simp [CarriesZForm]
  swapInteract _ _ _ := by simp [CarriesZForm]

/-- A checked instruction yields layers that carry instructions in Z form, when it is itself in Z
form if it has a classical control. -/
theorem carriesZForm_of_yields {i : Instruction} {more : List Layer}
    (hi : i.IsChecked ∧ (i.isClassicallyControlled = true → i.ActsInZ))
    (h : LayerCircuit.Yields i more) : ∀ l ∈ more, l.CarriesZForm := by
  have hmap : ∀ {α : Type} (f : α → Layer) (xs : List α), (∀ x, (f x).CarriesZForm) →
      ∀ l ∈ xs.map f, l.CarriesZForm := by
    intro α f xs hf l hl
    obtain ⟨x, -, rfl⟩ := List.mem_map.1 hl
    exact hf x
  cases h with
  | feedback hclassical =>
    rw [List.forall_mem_singleton]
    exact List.forall_mem_singleton.2 ⟨hi.1, hi.2 hclassical⟩
  | tick => simp [CarriesZForm]
  | coords => exact hmap _ _ fun _ => trivial
  | shift => simp [CarriesZForm]
  | annotated hg =>
    rw [List.forall_mem_singleton]
    refine List.forall_mem_singleton.2 ⟨hi.1, ?_⟩
    rcases hg with hg | hg <;> exact Instruction.actsInZ_of_kind hg (by decide)
  | rotation => exact hmap _ _ fun _ => trivial
  | reset => exact hmap _ _ fun _ => trivial
  | measure => exact hmap _ _ fun _ => trivial
  | measureReset b =>
    exact List.forall_mem_append.2 ⟨hmap _ _ fun _ => trivial, hmap _ _ fun _ => trivial⟩
  | product => exact hmap _ _ fun _ => trivial
  | noise g hg hkind =>
    rw [List.forall_mem_singleton]
    refine List.forall_mem_singleton.2 ⟨hi.1, Instruction.actsInZ_of_kind hg ?_⟩
    revert hkind
    cases g.kind <;> simp [GateKind.isNoise, GateKind.isCollapsing]
  | pairs g _ _ _ _ hmore =>
    generalize Target.pairs i.targets = groups at hmore
    induction hmore with
    | nil => simp
    | cons hl _ ih =>
      refine List.forall_mem_cons.2 ⟨?_, ih⟩
      cases hl with
      | pair _ _ h => cases h <;> trivial

/-! ## The change to the Z basis -/

theorem isZForm_iff {l : Layer} : l.IsZForm ↔ l.IsZOnly ∧ l.CarriesZForm := by
  cases l <;> simp [IsZForm, IsZOnly, CarriesZForm]

theorem carriesZForm_layerToZ {l : Layer} (hl : l.isLoop = false) (h : l.CarriesZForm) :
    ∀ j ∈ LayerCircuit.layerToZ l, j.CarriesZForm := by
  obtain ⟨-, heq⟩ | ⟨hother, before, after, heq⟩ := layerToZ_cases hl
  · rw [heq]
    exact List.forall_mem_singleton.2 h
  · have hinZ : l.inZ.CarriesZForm := by
      cases l <;> trivial
    rw [heq, List.forall_mem_append, List.forall_mem_cons, List.forall_mem_map,
      List.forall_mem_map]
    exact ⟨fun _ _ => trivial, hinZ, fun _ _ => trivial⟩

theorem isZForm_layerToZ {l : Layer} (hl : l.isLoop = false) (h : l.CarriesZForm) :
    ∀ j ∈ LayerCircuit.layerToZ l, j.IsZForm := by
  intro j hj
  exact isZForm_iff.2 ⟨isZOnly_layerToZ hl j hj, carriesZForm_layerToZ hl h j hj⟩

theorem allHold_isZForm_layerToZ (l : Layer) (h : Holds CarriesZForm l) :
    AllHold IsZForm (LayerCircuit.layerToZ l) := by
  induction l using loopInduction with
  | plain l hl =>
    rw [allHold_of_isLoop_eq_false (isLoop_layerToZ hl)]
    exact isZForm_layerToZ hl ((holds_of_isLoop_eq_false hl).1 h)
  | loop count body ih =>
    refine ⟨fun hcount => ?_, trivial⟩
    have hbody := allHold_iff.1 (h hcount)
    rw [toZ_eq_flatMap, allHold_iff]
    intro j hj
    obtain ⟨l, hl, hj⟩ := List.mem_flatMap.1 hj
    exact allHold_iff.1 (ih l hl (hbody l hl)) j hj

theorem allHold_isZForm_toZ {ls : LayerCircuit} (h : AllHold CarriesZForm ls) :
    AllHold IsZForm (LayerCircuit.toZ ls) := by
  rw [toZ_eq_flatMap, allHold_iff]
  intro j hj
  obtain ⟨l, hl, hj⟩ := List.mem_flatMap.1 hj
  exact allHold_iff.1 (allHold_isZForm_layerToZ l (allHold_iff.1 h l hl)) j hj

/-! ## Writing layers in Z form -/

theorem isZForm_pairInstruction {g : Gate} (hg : g ∈ Gate.zPairs) (pairs : List (Nat × Nat)) :
    (pairInstruction g.name pairs).IsZForm := by
  have hkind : g.kind = .clifford2 := by
    revert g
    decide
  refine ⟨(isPlain_pairInstruction hkind pairs).isSound.1, ?_⟩
  apply Instruction.actsInZ_of_name (g := g) rfl
  constructor
  · intro h
    cases g <;> simp [Gate.resetBasis?, Gate.kind] at h hkind
  · intro h
    cases g <;> simp [Gate.measuredBasis?, Gate.kind] at h hkind
  · intro h
    simp [h] at hkind
  · intro _ _ _ _
    exact hg

theorem isZForm_groupedPairs {entries : List (String × (Nat × Nat))}
    (h : ∀ entry ∈ entries, ∃ g ∈ Gate.zPairs, entry.1 = g.name) :
    ∀ i ∈ groupedPairs entries, i.IsZForm := by
  intro i hi
  rw [groupedPairs_eq] at hi
  obtain ⟨group, hgroup, rfl⟩ := List.mem_map.1 hi
  obtain ⟨entry, hentry, hname⟩ := name_of_mem_grouped hgroup
  obtain ⟨g, hg, hgname⟩ := h entry hentry
  rw [hname, hgname]
  exact isZForm_pairInstruction hg group.2

theorem gate_of_isZ {i : Interaction} (h : i.isZ = true) : i.gate = .controlled .z .z := by
  simp only [Interaction.isZ, Bool.and_eq_true, beq_iff_eq] at h
  simp [Interaction.gate, h]

theorem isZForm_pairInstructions {g : Gate} (hg : g ∈ Gate.zPairs) (pairs : List (Nat × Nat)) :
    ∀ i ∈ pairInstructions g.name pairs, i.IsZForm := by
  intro i hi
  unfold pairInstructions at hi
  split at hi
  · simp at hi
  · obtain rfl := List.mem_singleton.1 hi
    exact isZForm_pairInstruction hg pairs

theorem isZForm_interactSwapInstructions {interactions : List Interaction}
    (h : ∀ i ∈ interactions, i.isZ = true) :
    ∀ i ∈ interactSwapInstructions interactions, i.IsZForm := by
  have hfused : ∀ i ∈ interactions, fusedSwap? i = some .czSwap := by
    intro i hi
    simp [fusedSwap?, gate_of_isZ (h i hi)]
  have hapart : interactions.filter (fun i => (fusedSwap? i).isNone) = [] := by
    apply List.filter_eq_nil_iff.2
    intro i hi
    simp [hfused i hi]
  simp only [interactSwapInstructions, hapart, List.isEmpty_nil, if_true, List.append_nil]
  apply isZForm_groupedPairs
  intro entry hentry
  obtain ⟨i, hi, hentry⟩ := List.mem_filterMap.1 hentry
  rw [hfused i hi] at hentry
  cases hentry
  exact ⟨.czSwap, by decide, rfl⟩

theorem isZForm_onQubits {g : Gate} (hg : g = .reset .z ∨ g = .measure .z) (qubits : List Nat)
    (args : List Scalar) : (Instruction.onQubits g qubits args).IsZForm := by
  constructor
  · apply Instruction.isChecked_iff.2
    refine ⟨g, rfl, ?_⟩
    rcases hg with rfl | rfl <;> simp [Instruction.targetFault?, Gate.kind]
  · apply Instruction.actsInZ_of_name (g := g) rfl
    rcases hg with rfl | rfl <;> constructor <;>
      simp [Gate.resetBasis?, Gate.measuredBasis?, Gate.kind]

theorem isZForm_productInstruction {p : MeasuredProduct}
    (h : ∀ factor ∈ p.factors, factor.2 = .z) : (productInstruction p).IsZForm := by
  rw [productInstruction_eq]
  constructor
  · apply Instruction.isChecked_iff.2
    refine ⟨.measureProduct, rfl, ?_⟩
    by_cases hne : factorTargets p.factors = []
    · rw [hne]
      rfl
    · exact Instruction.targetFault?_joinProduct (.inl rfl) hne
        fun t => isPauli_of_mem_factorTargets
  · apply Instruction.actsInZ_of_name (g := .measureProduct) rfl
    refine ⟨by simp [Gate.resetBasis?], by simp [Gate.measuredBasis?], ?_, by simp [Gate.kind]⟩
    intro _ t ht b hb
    rcases Target.mem_joinProduct ht with ht | rfl
    · obtain ⟨factor, hfactor, rfl⟩ := List.mem_map.1 ht
      obtain rfl : factor.2 = b := Option.some.inj hb
      exact h factor hfactor
    · simp [Target.basis?] at hb

theorem isZForm_of_isPlain {i : Instruction} {g : Gate} (hi : i.IsPlain) (hg : i.gate? = some g)
    (hkind : g.kind.isCollapsing = false ∧ g.kind ≠ .clifford2) : i.IsZForm :=
  ⟨hi.isSound.1, Instruction.actsInZ_of_kind hg hkind⟩

/-- A layer in Z form is written with instructions in Z form. -/
theorem isZForm_of_mem_instructions {l : Layer} (hl : l.IsZForm) :
    ∀ i ∈ l.instructions, i.IsZForm := by
  cases l with
  | empty => simp [instructions]
  | loop count body => simp [instructions]
  | annotations _ | feedback _ | noise _ => exact hl
  | rotation rotations =>
    intro i hi
    have hplain := isPlain_rotationInstructions rotations i hi
    change i ∈ rotationInstructions rotations at hi
    rw [rotationInstructions_eq] at hi
    obtain ⟨group, hgroup, rfl⟩ := List.mem_map.1 hi
    obtain ⟨entry, hentry, hname⟩ := name_of_mem_grouped hgroup
    obtain ⟨e, -, rfl⟩ := List.mem_map.1 hentry
    have hgate : group.1 = (Gate.rotate e.2).name := hname
    exact isZForm_of_isPlain hplain (Instruction.gate?_of_name hgate)
      ⟨rfl, by simp [Gate.kind]⟩
  | interact interactions =>
    apply isZForm_groupedPairs
    intro entry hentry
    obtain ⟨i, hi, rfl⟩ := List.mem_map.1 hentry
    refine ⟨.controlled .z .z, by decide, ?_⟩
    rw [gate_of_isZ (hl i hi)]
  | swap pairs => exact isZForm_pairInstructions (g := .swap) (by decide) pairs
  | iswap pairs => exact isZForm_pairInstructions (g := .iswap) (by decide) pairs
  | interactSwap interactions => exact isZForm_interactSwapInstructions hl
  | reset resets =>
    intro i hi
    obtain ⟨entry, hentry, rfl⟩ := List.mem_map.1 hi
    apply isZForm_onQubits
    rw [hl entry hentry]
    exact .inl rfl
  | measure targets =>
    intro i hi
    obtain ⟨t, ht, rfl⟩ := List.mem_map.1 hi
    apply isZForm_onQubits
    rw [hl t ht]
    exact .inr rfl
  | product products =>
    intro i hi
    obtain ⟨p, hp, rfl⟩ := List.mem_map.1 hi
    exact isZForm_productInstruction (hl p hp)
  | coords positions =>
    intro i hi
    have hplain := isPlain_of_mem_instructions (l := .coords positions) rfl i hi
    obtain ⟨entry, -, rfl⟩ := List.mem_map.1 hi
    exact isZForm_of_isPlain (g := .qubitCoords) hplain (Instruction.gate?_of_name rfl) (by decide)
  | shift offset =>
    intro i hi
    have hplain := isPlain_of_mem_instructions (l := .shift offset) rfl i hi
    obtain rfl := List.mem_singleton.1 hi
    exact isZForm_of_isPlain (g := .shiftCoords) hplain (Instruction.gate?_of_name rfl) (by decide)

end Layer

/-! ## The whole pass -/

/-- Every instruction of the rewritten circuit is in Z form, at every depth, when every instruction
of the circuit with a classical control is. -/
theorem zBasisCircuit_actsInZ {text : String} {c out : Circuit}
    (hc : Circuit.parse text = .ok c)
    (hclassical : Circuit.Everywhere
      (fun i => i.isClassicallyControlled = true → i.ActsInZ) c)
    (h : LayerCircuit.zBasisCircuit c = .ok out) :
    Circuit.Everywhere Instruction.ActsInZ out := by
  obtain ⟨layers, hlayers, -, rfl⟩ := LayerCircuit.zBasisCircuit_eq_ok h
  have hchecked := (Circuit.Built.of_parse hc).checked
  have hcarried : Layer.AllHold Layer.CarriesZForm layers := by
    refine Layer.stable_carriesZForm.allHold_ofCircuit
      (fun _ _ hi hyields => Layer.carriesZForm_of_yields hi hyields) ?_ hlayers
    intro i hi
    exact ⟨hchecked i hi, hclassical i hi⟩
  have hform : Layer.AllHold Layer.IsZForm (LayerCircuit.optimized (LayerCircuit.toZ layers)) := by
    rw [Layer.stable_isZForm.allHold_optimized]
    exact Layer.allHold_isZForm_toZ hcarried
  have hwritten := Layer.everywhere_toCircuit Instruction.joinable_isZForm
    Instruction.isZForm_tick (hform.mono fun l hl => Layer.isZForm_of_mem_instructions hl)
  exact hwritten.mono fun i hi => hi.2

/-- Feedback next to interactions and measurements in other bases, in a loop. -/
def feedbackText : String :=
  "RX 0 1\nREPEAT 2 \x7b\nMR 0\nCX rec[-1] 1 sweep[0] 2\nTICK\nXCY 0 1 2 3\n" ++
    "MPP X0*Y1\nMY 2\n\x7d\n"

theorem zBasisCircuit_actsInZ_feedback :
    ∃ c out, Circuit.parse feedbackText = .ok c ∧
      Circuit.Everywhere (fun i => i.isClassicallyControlled = true → i.ActsInZ) c ∧
      LayerCircuit.zBasisCircuit c = .ok out ∧ Circuit.Everywhere Instruction.ActsInZ out := by
  have hok : ((Circuit.parse feedbackText).toOption.any fun c =>
      decide (Circuit.Everywhere (fun i => i.isClassicallyControlled = true → i.ActsInZ) c) &&
        (LayerCircuit.zBasisCircuit c).isOk) = true := by
    decide +kernel
  cases hc : Circuit.parse feedbackText with
  | error e => simp [hc, Except.toOption] at hok
  | ok c =>
    simp only [hc, Except.toOption, Option.any_some, Bool.and_eq_true, decide_eq_true_eq] at hok
    obtain ⟨hclassical, hout⟩ := hok
    cases hz : LayerCircuit.zBasisCircuit c with
    | error e => simp [hz, Except.isOk, Except.toBool] at hout
    | ok out => exact ⟨c, out, rfl, hclassical, hz, zBasisCircuit_actsInZ hc hclassical hz⟩

/-- Feedback that shares an instruction with a pair of qubits carries the pair along. -/
theorem zBasisCircuit_mixedPairs :
    ¬ ∀ text c out, Circuit.parse text = .ok c → LayerCircuit.zBasisCircuit c = .ok out →
      Circuit.Everywhere Instruction.ActsInZ out := by
  intro hall
  have hbad : ((Circuit.parse "M 0\nCX rec[-1] 1 2 3\n").toOption.any fun c =>
      (LayerCircuit.zBasisCircuit c).toOption.any fun out =>
        !decide (Circuit.Everywhere Instruction.ActsInZ out)) = true := by
    decide +kernel
  cases hc : Circuit.parse "M 0\nCX rec[-1] 1 2 3\n" with
  | error e => simp [hc, Except.toOption] at hbad
  | ok c =>
    cases hz : LayerCircuit.zBasisCircuit c with
    | error e => simp [hc, hz, Except.toOption] at hbad
    | ok out =>
      simp only [hc, hz, Except.toOption, Option.any_some, Bool.not_eq_true',
        decide_eq_false_iff_not] at hbad
      exact hbad (hall _ c out hc hz)

end StabCircuit
