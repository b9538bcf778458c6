import Mathlib.Data.List.Forall2
import StabCircuit.Layer.ZBasis
import StabCircuit.Proofs.Circuit.Checked

/-!
# What splitting and fusing can do

The layers that an instruction can yield, the ways in which two layers become one
and the ways in which neighbours fuse, each as a list of cases.  Everything proved
about splitting and local optimization is proved case by case from these.
-/

namespace StabCircuit

namespace Layer

/-- Whether a layer is a loop. -/
def isLoop : Layer → Bool
  | loop _ _ => true
  | _ => false

mutual

/-- What holds of plain layers, and of a loop when it holds of its layers, holds of all layers. -/
@[elab_as_elim]
theorem loopInduction {motive : Layer → Prop} (plain : ∀ l, l.isLoop = false → motive l)
    (loop : ∀ count body, (∀ l ∈ body, motive l) → motive (.loop count body)) :
    (l : Layer) → motive l
  | .loop count body => loop count body (loopInduction_body plain loop body)
  | empty | rotation _ | interact _ | swap _ | iswap _ | interactSwap _ | reset _ | measure _
  | product _ | coords _ | shift _ | annotations _ | feedback _ | noise _ => plain _ rfl

theorem loopInduction_body {motive : Layer → Prop} (plain : ∀ l, l.isLoop = false → motive l)
    (loop : ∀ count body, (∀ l ∈ body, motive l) → motive (.loop count body)) :
    (ls : List Layer) → ∀ l ∈ ls, motive l
  | [] => by simp
  | l :: rest => List.forall_mem_cons.2
      ⟨loopInduction plain loop l, loopInduction_body plain loop rest⟩

end

/-- The ways in which two layers of one kind become one. -/
inductive Absorbed : Layer → Layer → Layer → Prop
  | rotation (a b) : Absorbed (rotation a) (rotation b) (rotation (a.insertAll b.entries))
  | interact (a b) : Absorbed (interact a) (interact b) (interact (a ++ b))
  | interactSwap (a b) : Absorbed (interactSwap a) (interactSwap b) (interactSwap (a ++ b))
  | swap (a b) : Absorbed (swap a) (swap b) (swap (a ++ b))
  | iswap (a b) : Absorbed (iswap a) (iswap b) (iswap (a ++ b))
  | reset (a b) : Absorbed (reset a) (reset b) (reset (a ++ b))
  | measure (a b) : Absorbed (measure a) (measure b) (measure (a ++ b))
  | product (a b) : Absorbed (product a) (product b) (product (a ++ b))
  | coords (a b) : Absorbed (coords a) (coords b) (coords (a.insertAll b.entries))
  | annotations (a b) : Absorbed (annotations a) (annotations b) (annotations (a ++ b))
  | feedback (a b) : Absorbed (feedback a) (feedback b) (feedback (a ++ b))
  | noise (a b) : Absorbed (noise a) (noise b) (noise (a ++ b))

/-- Layers that become one are of the same kind and touch different qubits. -/
theorem absorbed_of_absorb? {l next joined : Layer} (h : l.absorb? next = some joined) :
    Absorbed l next joined ∧ ∀ q ∈ l.slots, q ∉ next.slots := by
  unfold absorb? at h
  split at h
  · cases h
  · next hslots =>
    have hapart : ∀ q ∈ l.slots, q ∉ next.slots := by
      intro q hq hq'
      exact hslots (List.any_eq_true.2 ⟨q, hq, List.contains_iff_mem.2 hq'⟩)
    refine ⟨?_, hapart⟩
    split at h
    case h_9 =>
      split at h
      · cases h
        exact .coords _ _
      · cases h
    case h_13 => cases h
    all_goals
      cases h
      constructor

theorem Absorbed.isLoop {l next joined : Layer} (h : Absorbed l next joined) :
    l.isLoop = false ∧ next.isLoop = false ∧ joined.isLoop = false := by
  cases h <;> exact ⟨rfl, rfl, rfl⟩

/-- The ways in which a layer fuses with the one after it. -/
inductive Fused : Layer → Layer → List Layer → Prop
  | emptyRight (l) : Fused l .empty [l]
  | emptyLeft (next) : Fused .empty next [next]
  | rotations (a b) : Fused (.rotation a) (.rotation b) [.rotation (composeRotations a b)]
  | rotationReset (a resets) : Fused (.rotation a) (.reset resets)
      [.rotation (resets.foldl (fun m entry => m.erase entry.1) a), .reset resets]
  | interactSwap {interactions swaps} (h : samePairs interactions swaps = true) :
      Fused (.interact interactions) (.swap swaps) [.interactSwap interactions]
  | swapInteract {interactions swaps} (h : samePairs interactions swaps = true) :
      Fused (.swap swaps) (.interact interactions)
        [.interactSwap (interactions.map Interaction.exchangeQubits)]
  | shifts (a b) : Fused (.shift a) (.shift b) [.shift (addShifts a b)]
  | joined {l next joined} (h : l.absorb? next = some joined) : Fused l next [joined]
  | kept (l next) : Fused l next [l, next]

theorem fused_joinOrKeep (l next : Layer) : Fused l next (joinOrKeep l next) := by
  unfold joinOrKeep
  split
  · next joined h => exact .joined h
  · exact .kept l next

theorem fused_fuse (l next : Layer) : Fused l next (fuse l next) := by
  fun_cases fuse l next
  case case1 => exact .emptyRight _
  case case2 => exact .emptyLeft _
  case case3 => exact .rotations _ _
  case case4 => exact .rotationReset _ _
  case case5 h => exact .interactSwap h
  case case6 => exact fused_joinOrKeep _ _
  case case7 h => exact .swapInteract h
  case case8 => exact fused_joinOrKeep _ _
  case case9 => exact .shifts _ _
  case case10 => exact .kept _ _
  case case11 => exact fused_joinOrKeep _ _

end Layer

namespace LayerCircuit

/-- The layer that a two-qubit gate yields on two qubits. -/
inductive YieldsPair : Gate → Nat → Nat → Layer → Prop
  | swap (a b) : YieldsPair .swap a b (.swap [sortedPair a b])
  | iswap (a b) : YieldsPair .iswap a b (.iswap [sortedPair a b])
  | czSwap (a b) : YieldsPair .czSwap a b (.interactSwap [.make a .z b .z])
  | controlledSwap (a b) : YieldsPair .controlledSwap a b (.interactSwap [.make a .z b .x])
  | swapControlled (a b) : YieldsPair .swapControlled a b (.interactSwap [.make b .z a .x])
  | controlled (P Q a b) : YieldsPair (.controlled P Q) a b (.interact [.make a P b Q])

/-- The layer that a two-qubit gate yields on a pair of targets. -/
inductive YieldsTargets (g : Gate) : List Target → Layer → Prop
  | pair {s t : Target} {a b : Nat} {l : Layer} (hs : s.qubit? = some a) (ht : t.qubit? = some b)
      (h : YieldsPair g a b l) : YieldsTargets g [s, t] l

theorem yieldsPair_of_pairLayer? {g : Gate} {a b : Nat} {l : Layer}
    (h : pairLayer? g a b = some l) : YieldsPair g a b l := by
  cases g <;> simp [pairLayer?, Interaction.ofGate?] at h <;> cases h <;> constructor

theorem forall₂_of_pairLayers? {g : Gate} {targets : List Target} {more : List Layer}
    (h : pairLayers? g targets = some more) :
    List.Forall₂ (YieldsTargets g) (Target.pairs targets) more := by
  unfold pairLayers? at h
  generalize Target.pairs targets = groups at h ⊢
  induction groups generalizing more with
  | nil =>
    cases h
    exact .nil
  | cons group groups ih =>
    rw [List.mapM_cons] at h
    obtain ⟨l, hl, h⟩ := Option.bind_eq_some_iff.1 h
    obtain ⟨rest, hrest, h⟩ := Option.bind_eq_some_iff.1 h
    cases h
    refine .cons ?_ (ih hrest)
    split at hl
    · obtain ⟨a, ha, hl⟩ := Option.bind_eq_some_iff.1 hl
      obtain ⟨b, hb, hl⟩ := Option.bind_eq_some_iff.1 hl
      exact .pair ha hb (yieldsPair_of_pairLayer? hl)
    · cases hl

/-- The layers that an instruction yields. -/
inductive Yields (i : Instruction) : List Layer → Prop
  | feedback (h : i.isClassicallyControlled = true) : Yields i [.feedback [i]]
  | tick (hg : i.gate? = some .tick) : Yields i [.empty]
  | coords (hg : i.gate? = some .qubitCoords) :
      Yields i (i.qubits.map fun q => .coords (OrderedMap.ofList [(q, i.args)]))
  | shift (hg : i.gate? = some .shiftCoords) : Yields i [.shift i.args]
  | annotated (hg : i.gate? = some .detector ∨ i.gate? = some .observableInclude) :
      Yields i [.annotations [i]]
  | rotation (r : Rotation) (hg : i.gate? = some (.rotate r))
      (hplain : i.isClassicallyControlled = false) :
      Yields i (i.qubits.map fun q => .rotation (OrderedMap.ofList [(q, r)]))
  | reset (b : Basis) (hg : i.gate? = some (.reset b))
      (hplain : i.isClassicallyControlled = false) : Yields i (resetLayers i b)
  | measure (b : Basis) (hg : i.gate? = some (.measure b))
      (hplain : i.isClassicallyControlled = false) : Yields i (measureLayers i b)
  | measureReset (b : Basis) (hg : i.gate? = some (.measureReset b))
      (hplain : i.isClassicallyControlled = false) :
      Yields i (measureLayers i b ++ resetLayers i b)
  | product (hg : i.gate? = some .measureProduct)
      (hplain : i.isClassicallyControlled = false) :
      Yields i ((Target.productGroups i.targets).map fun group =>
        .product [⟨factorsOf group, i.args⟩])
  | noise (g : Gate) (hg : i.gate? = some g) (hkind : g.kind.isNoise = true)
      (hplain : i.isClassicallyControlled = false) : Yields i [.noise [i]]
  | pairs (g : Gate) (more : List Layer) (hg : i.gate? = some g) (hkind : g.kind = .clifford2)
      (hplain : i.isClassicallyControlled = false)
      (hmore : List.Forall₂ (YieldsTargets g) (Target.pairs i.targets) more) : Yields i more

theorem addReversed_of_absorb?_none {layers : List Layer} {l : Layer}
    (h : ∀ last : Layer, last.absorb? l = none) : addReversed layers l = l :: layers := by
  cases layers with
  | nil => rfl
  | cons last rest => simp [addReversed, h last]

theorem absorb?_empty (last : Layer) : last.absorb? .empty = none := by
  cases last <;> simp [Layer.absorb?]

theorem absorb?_shift (last : Layer) (offset : List Scalar) :
    last.absorb? (.shift offset) = none := by
  cases last <;> simp [Layer.absorb?]

/-- Taking an instruction into layers adds the layers that it yields. -/
theorem yields_of_addInstruction {layers result : List Layer} {i : Instruction}
    (h : addInstruction layers i = .ok result) :
    ∃ more, Yields i more ∧ result = addManyReversed layers more := by
  unfold addInstruction at h
  cases hlookup : Gate.lookup i.name with
  | error e => simp [hlookup, CompileError.lift] at h
  | ok g =>
    have hg : i.gate? = some g := Gate.ofName?_of_lookup hlookup
    simp only [hlookup, CompileError.lift] at h
    by_cases hclassical : i.isClassicallyControlled = true
    · rw [if_pos hclassical] at h
      cases h
      exact ⟨_, .feedback hclassical, rfl⟩
    rw [if_neg hclassical] at h
    have hplain : i.isClassicallyControlled = false := by simpa using hclassical
    cases g with
    | tick =>
      cases h
      exact ⟨_, .tick hg, (addReversed_of_absorb?_none absorb?_empty).symm⟩
    | qubitCoords =>
      cases h
      exact ⟨_, .coords hg, rfl⟩
    | shiftCoords =>
      cases h
      exact ⟨_, .shift hg,
        (addReversed_of_absorb?_none fun last => absorb?_shift last i.args).symm⟩
    | detector =>
      cases h
      exact ⟨_, .annotated (.inl hg), rfl⟩
    | observableInclude =>
      cases h
      exact ⟨_, .annotated (.inr hg), rfl⟩
    | rotate r =>
      cases h
      exact ⟨_, .rotation r hg hplain, rfl⟩
    | reset b =>
      cases h
      exact ⟨_, .reset b hg hplain, rfl⟩
    | measure b =>
      cases h
      exact ⟨_, .measure b hg hplain, rfl⟩
    | measureReset b =>
      cases h
      exact ⟨_, .measureReset b hg hplain, List.foldl_append.symm⟩
    | measureProduct =>
      cases h
      exact ⟨_, .product hg hplain, rfl⟩
    | _ =>
      -- Gates without a row of their own are error channels or two-qubit gates.
      simp only [addGate] at h
      split at h
      · next hnoise =>
        cases h
        exact ⟨_, .noise _ hg hnoise hplain, rfl⟩
      · next hnoise =>
        split at h
        · next more hmore =>
          cases h
          refine ⟨more, .pairs _ more hg ?_ hplain (forall₂_of_pairLayers? hmore), rfl⟩
          simp [Gate.kind, GateKind.isNoise] at hnoise ⊢
        · cases h

/-- No instruction yields a loop. -/
theorem Yields.isLoop {i : Instruction} {more : List Layer} (h : Yields i more) :
    ∀ l ∈ more, l.isLoop = false := by
  have hmap : ∀ {α : Type} (f : α → Layer) (xs : List α), (∀ x, (f x).isLoop = false) →
      ∀ l ∈ xs.map f, l.isLoop = false := by
    intro α f xs hf l hl
    obtain ⟨x, -, rfl⟩ := List.mem_map.1 hl
    exact hf x
  cases h with
  | feedback => simp [Layer.isLoop]
  | tick => simp [Layer.isLoop]
  | coords => exact hmap _ _ fun _ => rfl
  | shift => simp [Layer.isLoop]
  | annotated => simp [Layer.isLoop]
  | rotation => exact hmap _ _ fun _ => rfl
  | reset => exact hmap _ _ fun _ => rfl
  | measure => exact hmap _ _ fun _ => rfl
  | measureReset b =>
    exact List.forall_mem_append.2 ⟨hmap _ _ fun _ => rfl, hmap _ _ fun _ => rfl⟩
  | product => exact hmap _ _ fun _ => rfl
  | noise => simp [Layer.isLoop]
  | pairs g _ _ _ _ hmore =>
    generalize Target.pairs i.targets = groups at hmore
    induction hmore with
    | nil => simp
    | cons hl _ ih =>
      refine List.forall_mem_cons.2 ⟨?_, ih⟩
      cases hl with
      | pair _ _ h => cases h <;> rfl

end LayerCircuit

end StabCircuit
