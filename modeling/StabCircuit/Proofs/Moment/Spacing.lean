import StabCircuit.Proofs.Circuit.Parsed
import StabCircuit.Proofs.Layer.Written
import StabCircuit.Proofs.Moment.Verified

/-!
# Step boundaries between layers

Layers that use qubits are written with a step boundary between them, loops end
with one, and a disjoint layer uses no qubit twice.  So what is written so far is
free of reuse, and unless a step boundary is owed nothing is open; every layer
keeps this up, and so does every iteration of a loop.
-/

namespace StabCircuit

open Mark

/-! ## The marks of a layer -/

namespace Layer

open Instruction (markPiece)

theorem shown_markPiece_of_metadata {i : Instruction} (h : i.kind = .metadata) :
    i.shown markPiece = [] := by
  unfold Instruction.shown
  split
  · rfl
  · next g hgate =>
    rw [Instruction.kind_of_gate? hgate] at h
    have hg : g ≠ .tick := by
      rintro rfl
      cases h
    simp [markPiece, hg, h, GateKind.isMetadata]

theorem shownPair_markPiece {g : Gate} (h : g.kind = .clifford2) (p : Nat × Nat) :
    shownPair markPiece g p = [p.1, p.2].map use :=
  Instruction.markPiece_of_operation (by rw [h]; rfl) [] rfl

/-- Pairs that hold the qubits of interactions use these. -/
theorem flatMap_pairs_perm {interactions : List Interaction} {pair : Interaction → Nat × Nat}
    (hpair : ∀ i, [(pair i).1, (pair i).2].Perm [i.a, i.b]) :
    (interactions.flatMap fun i => [(pair i).1, (pair i).2].map use).Perm
      ((interact interactions).slots.map use) := by
  rw [slots, List.map_flatMap]
  apply List.Perm.flatMap_left
  intro i _
  exact (hpair i).map use

/-- Whether a layer is written in a single step. -/
def isSingleStep : Layer → Bool
  | rotation _ | interact _ | swap _ | iswap _ | reset _ | measure _ | product _ => true
  | _ => false

/-- A layer written in a single step shows uses of its qubits, each at most once for a slot. -/
theorem shown_markPiece_subperm {l : Layer} (h : l.isSingleStep = true) :
    (shown markPiece l).Subperm (l.slots.map use) := by
  cases l with
  | rotation rotations =>
    have huses : shown markPiece (rotation rotations) =
        (rotations.entries.filter fun entry => !entry.2.isIdentity).map fun entry =>
          use entry.1 := by
      rw [shown, List.map_eq_flatMap]
      rfl
    rw [huses, slots, OrderedMap.keys, List.map_map]
    exact (List.filter_sublist.map _).subperm
  | interact interactions =>
    apply List.Perm.subperm
    simp only [shown, shownPair_markPiece (kind_interaction_gate _)]
    exact flatMap_pairs_perm operands_perm
  | swap pairs =>
    rw [shown, slots, List.map_flatMap, List.flatMap_congr fun p _ => shownPair_markPiece rfl p]
  | iswap pairs =>
    rw [shown, slots, List.map_flatMap, List.flatMap_congr fun p _ => shownPair_markPiece rfl p]
  | reset resets =>
    rw [shown, slots, List.map_map, List.map_eq_flatMap]
    exact List.Subperm.refl _
  | measure targets =>
    rw [shown, slots, List.map_map, List.map_eq_flatMap]
    exact List.Subperm.refl _
  | product products =>
    have hfactors : ∀ x ∈ products, markPiece .measureProduct (x.args.map Scalar.position)
        (factorTargets x.factors) = (x.factors.map Prod.fst).map use := by
      intro x _
      have hclassical : (factorTargets x.factors).any Target.isClassical = false := by
        simp [factorTargets, Target.isClassical, Target.isRecord, Target.isSweep]
      rw [Instruction.markPiece_of_operation rfl _ hclassical, factorTargets, List.filterMap_map]
      simp [Function.comp_def, Target.qubit?]
    rw [shown, slots, List.map_flatMap, List.flatMap_congr hfactors]
  | _ => simp [isSingleStep] at h

theorem reuseFree_of_subperm {ms : List Mark} {qubits : List Nat} (hqubits : qubits.Nodup)
    (h : ms.Subperm (qubits.map use)) : ReuseFree ms := by
  have hinjective : Function.Injective use := by
    intro a b hab
    cases hab
    rfl
  obtain ⟨part, hperm, hsublist⟩ := h
  apply reuseFree_of_nodup
  exact hperm.nodup_iff.1 ((hqubits.map hinjective).sublist hsublist)

theorem marks_instructions_perm {p : Instruction → Prop} {l : Layer} (hl : Carries p l)
    (h : l.isSingleStep = true) :
    (l.instructions.flatMap Instruction.marks).Perm (shown markPiece l) := by
  cases l with
  | rotation rotations => exact shown_rotationInstructions_perm rotations
  | interact interactions => exact shown_interactionInstructions_perm interactions
  | swap pairs => exact @shown_pairInstructions_perm _ markPiece .swap rfl pairs
  | iswap pairs => exact @shown_pairInstructions_perm _ markPiece .iswap rfl pairs
  | reset _ | measure _ | product _ =>
    exact .of_eq (shown_instructions (fun _ => shown_markPiece_of_metadata) hl rfl)
  | _ => simp [isSingleStep] at h

theorem marks_fusedSwaps_perm (interactions : List Interaction) :
    ((groupedPairs (interactions.filterMap fun i =>
      (fusedSwap? i).map fun g => (g.name, i.operands))).flatMap Instruction.marks).Perm
      ((interact (interactions.filter fun i => (fusedSwap? i).isSome)).slots.map use) := by
  apply (shown_fusedSwaps_perm interactions).trans
  refine List.Perm.trans (.of_eq ?_) (flatMap_pairs_perm operands_perm)
  apply List.flatMap_congr
  intro i hi
  obtain ⟨g, hg⟩ := Option.isSome_iff_exists.1 (List.mem_filter.1 hi).2
  rw [shownInteractSwap_of_some hg, shownPair_markPiece (kind_fusedSwap? hg)]

theorem marks_interactions_perm (interactions : List Interaction) :
    ((interactionInstructions interactions).flatMap Instruction.marks).Perm
      ((interact interactions).slots.map use) := by
  apply (shown_interactionInstructions_perm interactions).trans
  simp only [shown, shownPair_markPiece (kind_interaction_gate _)]
  exact flatMap_pairs_perm operands_perm

theorem marks_swaps_perm (interactions : List Interaction) :
    ((pairInstructions Gate.swap.name (interactions.map Interaction.pair)).flatMap
      Instruction.marks).Perm ((interact interactions).slots.map use) := by
  apply (@shown_pairInstructions_perm _ markPiece .swap rfl _).trans
  rw [List.flatMap_map, List.flatMap_congr fun i _ => shownPair_markPiece rfl i.pair]
  exact flatMap_pairs_perm fun i => sortedPair_perm i.a i.b

/-- Interactions followed by swaps are written in two steps, each of which uses no qubit twice. -/
theorem reuseFree_interactSwapInstructions {interactions : List Interaction}
    (hnodup : (interact interactions).slots.Nodup) :
    ReuseFree ((interactSwapInstructions interactions).flatMap Instruction.marks) := by
  have hsplit := ((List.filter_append_perm (fun i => (fusedSwap? i).isSome)
    interactions).flatMap_right fun i => [i.a, i.b]).map use
  simp only [Option.not_isSome, List.flatMap_append, List.map_append] at hsplit
  have hfused := marks_fusedSwaps_perm interactions
  have hapart := marks_interactions_perm (interactions.filter fun i => (fusedSwap? i).isNone)
  have hswaps := marks_swaps_perm (interactions.filter fun i => (fusedSwap? i).isNone)
  have hfirst := reuseFree_of_subperm hnodup ((hfused.append hapart).trans hsplit).subperm
  have hsecond := reuseFree_of_subperm hnodup
    (hswaps.subperm.trans ((List.sublist_append_right _ _).subperm.trans hsplit.subperm))
  rw [interactSwapInstructions, List.flatMap_append]
  split
  · rw [List.flatMap_nil, List.append_nil]
    exact hfirst.of_append_left
  · have htick : Instruction.tick.marks = [boundary] :=
      Instruction.marks_of_isTick Instruction.isChecked_tick rfl
    simp only [List.flatMap_append, List.flatMap_singleton, htick, ← List.append_assoc]
    rw [List.append_assoc, List.singleton_append, reuseFree_append_boundary]
    exact ⟨hfirst, hsecond⟩

/-- A disjoint layer that needs a step boundary before it uses no qubit twice within a step. -/
theorem reuseFree_instructions {p : Instruction → Prop} {l : Layer} (hl : Carries p l)
    (hdisjoint : l.isDisjoint = true) (hplain : l.isLoop = false)
    (h : l.needsTickBefore = true) : ReuseFree (l.instructions.flatMap Instruction.marks) := by
  have hslots : l.slots.Nodup := by
    apply nodup_of_isDisjoint hdisjoint
    cases l with
    | feedback _ | noise _ => simp [needsTickBefore] at h
    | loop _ _ => simp [isLoop] at hplain
    | _ => rfl
  by_cases hsingle : l.isSingleStep = true
  · apply reuseFree_of_subperm hslots
    exact (marks_instructions_perm hl hsingle).subperm.trans (shown_markPiece_subperm hsingle)
  · cases l with
    | interactSwap interactions => exact reuseFree_interactSwapInstructions hslots
    | loop _ _ => simp [isLoop] at hplain
    | empty | coords _ | shift _ | annotations _ | feedback _ | noise _ =>
      simp [needsTickBefore] at h
    | _ => exact absurd rfl hsingle

end Layer

/-! ## Carried instructions -/

/-- A checked instruction that uses no qubit as a whole. -/
structure Instruction.IsQuiet (i : Instruction) : Prop where
  checked : i.IsChecked
  milder : Milder i.wholeMarks []

theorem Instruction.isQuiet_of_isCarried {i : Instruction} (hi : i.IsChecked)
    (h : i.isCarried = true) : i.IsQuiet := by
  have hexempt : Verification.isExempt i = true := by
    rw [isCarried, Bool.or_assoc, Bool.or_comm] at h
    exact h
  refine ⟨hi, ?_⟩
  rw [wholeMarks, if_pos hexempt]
  split
  · exact milder_boundary []
  · exact .refl []

namespace Layer

theorem isQuiet_of_mem_instructions {l : Layer} (hl : Carries Instruction.IsQuiet l)
    (h : l.needsTickBefore = false) : ∀ i ∈ l.instructions, i.IsQuiet := by
  have hannotation : ∀ {g : Gate} {i : Instruction}, i.IsPlain → i.name = g.name →
      g.kind.isMetadata = true → i.IsQuiet := by
    intro g i hi hname hkind
    apply Instruction.isQuiet_of_isCarried hi.isSound.1
    simp [Instruction.isCarried, Instruction.kind_of_gate? (Instruction.gate?_of_name hname), hkind]
  intro i hi
  cases l with
  | empty => simp [instructions] at hi
  | coords positions =>
    have hplain := isPlain_of_mem_instructions (l := coords positions) rfl i hi
    obtain ⟨entry, -, rfl⟩ := List.mem_map.1 hi
    exact hannotation (g := .qubitCoords) hplain rfl rfl
  | shift offset =>
    have hplain := isPlain_of_mem_instructions (l := shift offset) rfl i hi
    obtain rfl := List.mem_singleton.1 hi
    exact hannotation (g := .shiftCoords) hplain rfl rfl
  | annotations _ | feedback _ | noise _ => exact hl i hi
  | _ => simp [needsTickBefore] at h

end Layer

/-! ## Writing layers -/

namespace LayerCircuit

/-- What is written is free of reuse, and nothing is open unless a step boundary is owed. -/
structure Spaced (owed : Bool) (done : List Operation) : Prop where
  checked : Circuit.Everywhere Instruction.IsChecked done
  free : ReuseFree (Circuit.unrolled Instruction.wholeMarks done.reverse)
  closed : owed = false → Closed (Circuit.unrolled Instruction.wholeMarks done.reverse)

theorem spaced_nil (owed : Bool) : Spaced owed [] where
  checked := Circuit.everywhere_nil _
  free := reuseFree_nil
  closed _ := closed_nil

variable {owed : Bool} {done : List Operation}

theorem related_wholeMarks : Circuit.Related Milder Instruction.wholeMarks := by
  intro last next hlast hnext h
  exact Instruction.milder_wholeMarks_join hlast hnext h

/-- What comes about by marks that are free of reuse is spaced. -/
theorem spaced_of_milder {ms : List Mark} (hchecked : Circuit.Everywhere Instruction.IsChecked done)
    (h : Milder (Circuit.unrolled Instruction.wholeMarks done.reverse) ms) (hfree : ReuseFree ms)
    (hclosed : owed = false → Closed ms) : Spaced owed done where
  checked := hchecked
  free := h.reuseFree hfree
  closed howed := h.closed hfree (hclosed howed)

theorem Spaced.pushTick (h : Spaced owed done) : Spaced false (Circuit.pushReversed done .tick) := by
  have htick := Instruction.isChecked_tick
  apply spaced_of_milder (Circuit.everywhere_pushReversed Circuit.joinable_isChecked h.checked htick)
    (Circuit.related_pushReversed compositional_milder related_wholeMarks h.checked htick)
  · exact reuseFree_concat_boundary.2 h.free
  · intro _
    exact closed_concat_boundary _

/-- Instructions that use no qubit keep what is written spaced. -/
theorem Spaced.pushQuiet (h : Spaced owed done) {is : List Instruction}
    (his : ∀ i ∈ is, i.IsQuiet) : Spaced owed (is.foldl Circuit.pushReversed done) := by
  have hchecked : ∀ i ∈ is, i.IsChecked := fun i hi => (his i hi).checked
  have hquiet : Milder (is.flatMap Instruction.wholeMarks) (is.flatMap fun _ => []) :=
    .flatMap fun i hi => (his i hi).milder
  have hpush := Circuit.related_foldl_pushReversed compositional_milder related_wholeMarks
    h.checked hchecked
  have hsame := hpush.trans ((Milder.refl _).append hquiet)
  rw [List.flatMap_eq_nil_iff.2 fun _ _ => rfl, List.append_nil] at hsame
  exact spaced_of_milder (Circuit.everywhere_foldl_pushReversed Circuit.joinable_isChecked
    h.checked hchecked) hsame h.free h.closed

/-- After a step boundary, instructions that use no qubit twice within a step keep what is written
free of reuse. -/
theorem Spaced.pushStep (h : Spaced false done) {is : List Instruction}
    (his : ∀ i ∈ is, i.IsChecked) (hfree : ReuseFree (is.flatMap Instruction.marks)) :
    Spaced true (is.foldl Circuit.pushReversed done) := by
  have hwhole : Milder (is.flatMap Instruction.wholeMarks) (is.flatMap Instruction.marks) :=
    .flatMap fun i hi => Instruction.milder_wholeMarks (his i hi)
  apply spaced_of_milder (Circuit.everywhere_foldl_pushReversed Circuit.joinable_isChecked
    h.checked his) (Circuit.related_foldl_pushReversed compositional_milder related_wholeMarks
    h.checked his)
  · exact (reuseFree_append (h.closed rfl)).2 ⟨h.free, hwhole.reuseFree hfree⟩
  · simp

/-- After a step boundary, the iterations of a body that ends with one keep what is written free of
reuse and leave nothing open. -/
theorem Spaced.addLoop (h : Spaced false done) {inner : List Operation} (hinner : Spaced owed inner)
    (count : Nat) :
    Spaced false (Circuit.addReversed done (.block count (Circuit.tick inner.reverse))) := by
  have hticked := hinner.pushTick
  have hbody : Circuit.tick inner.reverse = (Circuit.pushReversed inner .tick).reverse := by
    rw [Circuit.tick, Circuit.push, List.reverse_reverse]
  have hblock : Circuit.Within Instruction.IsChecked (.block count (Circuit.tick inner.reverse)) := by
    rw [Circuit.within_block, hbody, Circuit.everywhere_reverse]
    exact hticked.checked
  have hfree := hticked.free.replicate (hticked.closed rfl) count
  have hclosed := (hticked.closed rfl).replicate count
  rw [← hbody] at hfree hclosed
  apply spaced_of_milder (Circuit.everywhere_addReversed Circuit.joinable_isChecked h.checked _
    hblock) (Circuit.related_addReversed compositional_milder related_wholeMarks h.checked _ hblock)
  · exact (reuseFree_append (h.closed rfl)).2 ⟨h.free, hfree⟩
  · intro _
    exact (h.closed rfl).append hclosed

/-- A disjoint layer whose carried instructions use no qubit. -/
structure Fits (l : Layer) : Prop where
  disjoint : l.isDisjoint = true
  carries : Layer.Carries Instruction.IsQuiet l

theorem Spaced.weaken {owed' : Bool} (h : Spaced owed done) (howed : owed' = false → owed = false) :
    Spaced owed' done where
  checked := h.checked
  free := h.free
  closed howed' := h.closed (howed howed')

/-- A plain layer keeps what is written spaced, if it comes after a step boundary where it needs
one. -/
theorem Spaced.writePlain (h : Spaced owed done) {l : Layer} (hl : Fits l)
    (hplain : l.isLoop = false) (htick : l.needsTickBefore = true → owed = false) :
    Spaced (owed || l.needsTickAfter) (l.instructions.foldl Circuit.pushReversed done) := by
  by_cases hbefore : l.needsTickBefore = true
  · have hafter : l.needsTickAfter = true := by
      cases l with
      | loop _ _ => simp [Layer.isLoop] at hplain
      | empty | coords _ | shift _ | annotations _ | noise _ => simp [Layer.needsTickBefore] at hbefore
      | _ => rfl
    have hchecked : Layer.Carries Instruction.IsChecked l :=
      hl.carries.mono fun _ hi => hi.checked
    obtain rfl := htick hbefore
    rw [hafter, Bool.or_true]
    apply h.pushStep (Layer.isChecked_of_mem_instructions hchecked)
    exact Layer.reuseFree_instructions hl.carries hl.disjoint hplain hbefore
  · have hquiet := Layer.isQuiet_of_mem_instructions hl.carries (by simpa using hbefore)
    apply (h.pushQuiet hquiet).weaken
    intro howed
    exact (Bool.or_eq_false_iff.1 howed).1

/-- Writing a layer keeps what is written spaced. -/
def KeepsSpaced (l : Layer) : Prop :=
  ∀ (owed : Bool) (done : List Operation), Spaced owed done → l.isVacuous = false →
    (l.needsTickBefore = true → owed = false) →
    Spaced (owed || l.needsTickAfter) (writeLayer done l)

/-- The step boundary before a layer is written where it is owed and needed. -/
theorem Spaced.before (h : Spaced owed done) (l : Layer) :
    Spaced (owed && !(owed && l.needsTickBefore))
      (if owed && l.needsTickBefore then Circuit.pushReversed done .tick else done) := by
  cases hticks : owed && l.needsTickBefore with
  | true =>
    rw [if_pos rfl, Bool.not_true, Bool.and_false]
    exact h.pushTick
  | false =>
    rw [if_neg Bool.false_ne_true, Bool.not_false, Bool.and_true]
    exact h

theorem Spaced.writeAll (h : Spaced owed done) {ls : List Layer} (hls : ∀ l ∈ ls, KeepsSpaced l) :
    Spaced true (LayerCircuit.writeAll done owed ls) := by
  induction ls generalizing owed done with
  | nil => exact h.weaken (by simp)
  | cons l rest ih =>
    rw [List.forall_mem_cons] at hls
    rw [LayerCircuit.writeAll]
    split
    · exact ih h hls.2
    · next hvacuous =>
      refine ih (hls.1 _ _ (h.before l) (by simpa using hvacuous) ?_) hls.2
      intro hbefore
      rw [hbefore, Bool.and_true, Bool.and_not_self]

theorem keepsSpaced {l : Layer} (hl : Layer.Holds Fits l) : KeepsSpaced l := by
  induction l using Layer.loopInduction with
  | plain l hplain =>
    intro owed done h _ htick
    rw [Layer.writeLayer_of_isLoop_eq_false hplain]
    exact h.writePlain ((Layer.holds_of_isLoop_eq_false hplain).1 hl) hplain htick
  | loop count body ih =>
    intro owed done h hvacuous htick
    have hcount : count ≠ 0 := by
      rintro rfl
      simp [Layer.isVacuous] at hvacuous
    have hbody := Layer.allHold_iff.1 (hl hcount)
    have hinner := (spaced_nil false).writeAll fun l hmem => ih l hmem (hbody l hmem)
    obtain rfl := htick rfl
    exact h.addLoop hinner count

/-- Layers that fit are written without a reuse. -/
theorem reuseFree_toCircuit {ls : LayerCircuit} (hls : Layer.AllHold Fits ls) :
    ReuseFree (Circuit.unrolled Instruction.wholeMarks ls.toCircuit) :=
  ((spaced_nil false).writeAll fun l hl => keepsSpaced (Layer.allHold_iff.1 hls l hl)).free

/-! ## Layers of a circuit -/

/-- Layers that come about from a circuit by splitting it, by changes to the Z basis and by local
optimization. -/
inductive Derived (c : Circuit) : LayerCircuit → Prop
  | split {ls : LayerCircuit} (h : ofCircuit c = .ok ls) : Derived c ls
  | toZ {ls : LayerCircuit} (h : Derived c ls) : Derived c (LayerCircuit.toZ ls)
  | optimized {ls : LayerCircuit} (h : Derived c ls) : Derived c ls.optimized

/-- Layers carry nothing but instructions that use no qubit. -/
theorem Derived.carries {c : Circuit} {ls : LayerCircuit}
    (hc : Circuit.Everywhere Instruction.IsChecked c) (h : Derived c ls) :
    Layer.AllHold (Layer.Carries Instruction.IsQuiet) ls := by
  have hstable := Layer.stable_carries Instruction.IsQuiet
  induction h with
  | split h =>
    apply hstable.allHold_ofCircuit _ hc h
    intro i more hi hyields
    exact Layer.carries_of_yields hi (Instruction.isQuiet_of_isCarried hi) hyields
  | toZ h ih => exact ((Layer.stableToZ_carries _).allHold_toZ _).2 ih
  | optimized h ih => exact (hstable.allHold_optimized _).2 ih

/-- Layers of a circuit that pass the check for overlaps are written: every instruction is
accepted, and verification finds no qubit used twice in a moment. -/
theorem toCircuit_verified {text : String} {c : Circuit} {ls : LayerCircuit}
    (hc : Circuit.parse text = .ok c) (hls : Derived c ls) (hcheck : checkDisjoint ls = .ok ()) :
    Layer.AllHold (fun l => ∀ i ∈ l.instructions,
      Instruction.make i.name i.targets i.args = .ok i) ls ∧
    ¬ ReportsReuse (Verification.verify false ls.toCircuit) := by
  have hcarries := hls.carries (Circuit.Built.of_parse hc).checked
  have hdisjoint := Layer.allHold_isDisjoint_of_checkDisjoint hcheck
  constructor
  · apply hcarries.mono
    intro l hl
    exact Layer.isChecked_of_mem_instructions (hl.mono fun _ hi => hi.checked)
  · intro hreuse
    have hfits : Layer.AllHold Fits ls :=
      (Layer.allHold_and.2 ⟨hdisjoint, hcarries⟩).mono fun _ hl => ⟨hl.1, hl.2⟩
    exact (Verification.verdict_verify ls.toCircuit).reused hreuse (reuseFree_toCircuit hfits)

/-- Nested loops with an interaction and a swap that have no single gate, and with feedback. -/
def spacedText : String :=
  "R 0 1 2\nREPEAT 3 \x7b\nH 0\nYCX 0 1\nSWAP 0 1\nREPEAT 2 \x7b\nM 2\nCX rec[-1] 2\n\x7d\nH 2\n\x7d\n" ++
    "MPP X0*Y1\n"

theorem toCircuit_verified_spaced :
    ∃ c ls, Circuit.parse spacedText = .ok c ∧ Derived c ls ∧ checkDisjoint ls = .ok () ∧
      Layer.AllHold (fun l => ∀ i ∈ l.instructions,
        Instruction.make i.name i.targets i.args = .ok i) ls ∧
      ¬ ReportsReuse (Verification.verify false ls.toCircuit) := by
  have hok : ((Circuit.parse spacedText).toOption.any fun c => (ofCircuit c).toOption.any fun ls =>
      (checkDisjoint ls.optimized).isOk) = true := by
    decide +kernel
  cases hc : Circuit.parse spacedText with
  | error e => simp [hc, Except.toOption] at hok
  | ok c =>
    cases hsplit : ofCircuit c with
    | error e => simp [hc, hsplit, Except.toOption] at hok
    | ok ls =>
      simp only [hc, hsplit, Except.toOption, Option.any_some] at hok
      cases hcheck : checkDisjoint ls.optimized with
      | error e => simp [hcheck, Except.isOk, Except.toBool] at hok
      | ok _ =>
        have hls : Derived c ls.optimized := .optimized (.split hsplit)
        exact ⟨c, ls.optimized, rfl, hls, hcheck, toCircuit_verified hc hls hcheck⟩

end LayerCircuit

end StabCircuit
