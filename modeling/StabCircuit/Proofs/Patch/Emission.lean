import StabCircuit.Proofs.Builder.Atomicity
import StabCircuit.Proofs.Builder.Emitted
import StabCircuit.Proofs.Builder.Interactions
import StabCircuit.Proofs.Patch.Schedule

/-!
# What measuring a patch emits

Either way of measuring a patch appends instructions with known operations and binds the
key of every tile.  Through the measurement qubits these are resets in X, the interactions
of all tiles, step by step and basis by basis, and measurements in X; with products there is
one measurement for every tile whose product is not the identity.
-/

namespace StabCircuit

namespace Build

/-- A builder has gone on from another: it has appended instructions that perform operations, and
bound keys, some of them to results. -/
structure Performs (b b' : Builder) (xs : List Action) (keys measured : List Key) : Prop where
  layout : b'.layout = b.layout
  appended : ∃ is : List Instruction, is.flatMap Instruction.actions = xs ∧
    b'.circuit = is.foldl Circuit.push b.circuit
  tracker : b.tracker.Extends b'.tracker keys measured

variable {b b' b'' : Builder} {xs ys : List Action} {keys keys' measured measured' : List Key}

theorem performs_refl (b : Builder) : Performs b b [] [] [] :=
  ⟨rfl, ⟨[], rfl, rfl⟩, Tracker.extends_refl _⟩

theorem Performs.trans (h : Performs b b' xs keys measured)
    (h' : Performs b' b'' ys keys' measured') :
    Performs b b'' (xs ++ ys) (keys ++ keys') (measured ++ measured') := by
  obtain ⟨is, rfl, hcircuit⟩ := h.appended
  obtain ⟨js, rfl, hcircuit'⟩ := h'.appended
  constructor
  · rw [h'.layout, h.layout]
  · refine ⟨is ++ js, List.flatMap_append, ?_⟩
    rw [hcircuit', hcircuit, List.foldl_append]
  · exact h.tracker.trans h'.tracker

theorem performs_push (i : Instruction) {t : Tracker} (ht : b.tracker.Extends t keys measured) :
    Performs b { b with circuit := b.circuit.push i, tracker := t } i.actions keys measured :=
  ⟨rfl, ⟨[i], List.flatMap_singleton _ _, rfl⟩, ht⟩

theorem performs_push_metadata {i : Instruction} (hi : i.kind.isMetadata = true) :
    Performs b { b with circuit := b.circuit.push i } [] [] [] := by
  have hpush := performs_push i (Tracker.extends_refl b.tracker)
  rwa [Instruction.actions_eq_nil_of_isMetadata hi] at hpush

/-- Calls on builders of one layout perform what each of them performs. -/
theorem performs_forM {α : Type} {f : α → Build Unit} {layout : OrderedMap Coord Nat}
    {xs : α → List Action} {keys measured : α → List Key} {p : α → Prop} {items : List α}
    (hf : ∀ x ∈ items, ∀ b b', b.layout = layout → Gives (f x) b () b' →
      p x ∧ Performs b b' (xs x) (keys x) (measured x))
    (hb : b.layout = layout) (h : Gives (items.forM f) b () b') :
    (∀ x ∈ items, p x) ∧
      Performs b b' (items.flatMap xs) (items.flatMap keys) (items.flatMap measured) := by
  have hall := gives_forM_composes (R := Performs) (p := fun c => c.layout = layout)
    (fun c _ => performs_refl c) Performs.trans
    (fun x hx c c' hc hone => by
      obtain ⟨hp, hperforms⟩ := hf x hx c c' hc hone
      exact ⟨hp, hperforms, hperforms.layout.trans hc⟩) hb h
  exact ⟨hall.1, hall.2.1⟩

/-- Calls that bind no keys. -/
theorem performs_forM_unbound {α : Type} {f : α → Build Unit} {layout : OrderedMap Coord Nat}
    {xs : α → List Action} {p : α → Prop} {items : List α}
    (hf : ∀ x ∈ items, ∀ b b', b.layout = layout → Gives (f x) b () b' →
      p x ∧ Performs b b' (xs x) [] [])
    (hb : b.layout = layout) (h : Gives (items.forM f) b () b') :
    (∀ x ∈ items, p x) ∧ Performs b b' (items.flatMap xs) [] [] := by
  have hall := performs_forM hf hb h
  have hnil : items.flatMap (fun _ => ([] : List Key)) = [] := by simp
  rwa [hnil] at hall

/-! ## Calls -/

theorem Emits.performs {is : List Instruction} (h : Emits b b' is keys measured) :
    Performs b b' (is.flatMap Instruction.actions) keys measured :=
  ⟨h.layout, ⟨is, rfl, h.circuit⟩, h.tracker⟩

theorem performs_tick (h : Gives tick b () b') : Performs b b' [] [] [] := by
  have hperforms := (emits_tick h).performs
  rwa [List.flatMap_singleton, Instruction.actions_tick] at hperforms

theorem performs_reset {basis : Basis} {qubits : List Coord}
    (h : Gives (gate (Gate.reset basis).name qubits []) b () b') :
    Performs b b' ((Coord.sort qubits).map fun q => .prepare (indexIn b.layout q) basis) [] [] := by
  have hperforms := (emits_reset h).performs
  rwa [actions_sortedInstruction (.inr (.inl rfl)) fun q => rfl] at hperforms

theorem performs_measure {qubits : List Coord} {basis : Basis} {keyOf : Coord → Key}
    {layer : String} (h : Gives (measure qubits basis keyOf layer) b () b') :
    Performs b b' ((Coord.sort qubits).map fun q => .measure [(indexIn b.layout q, basis)])
      ((Coord.sort qubits).map fun q => .atLayer (keyOf q) layer)
      ((Coord.sort qubits).map fun q => .atLayer (keyOf q) layer) := by
  have hperforms := (emits_measure h).performs
  rwa [actions_sortedInstruction (.inr (.inr (.inl rfl))) fun q => rfl] at hperforms

/-- The factors of a product, by the indices of their qubits. -/
def factorsIn (layout : OrderedMap Coord Nat) (product : PauliProduct) : List (Nat × Basis) :=
  product.terms.map fun term => (indexIn layout term.1, term.2)

theorem performs_measureProduct {product : PauliProduct} {key : Key} {flip : Option Scalar}
    (h : Gives (measureProduct product key flip) b () b') :
    Performs b b' (if product.isIdentity then [] else [.measure (factorsIn b.layout product)])
      [key] (if product.isIdentity then [] else [key]) := by
  rcases measureProduct_spec h with ⟨hidentity, t, ht, rfl⟩ | ⟨hidentity, i, t, hi, ht, rfl⟩
  · rw [if_pos hidentity, if_pos hidentity]
    exact ⟨rfl, ⟨[], rfl, rfl⟩, Tracker.extends_recordGroup_nil ht⟩
  · obtain ⟨hne, hpauli⟩ := factors_spec hidentity b.layout
    have hgroups := (Instruction.targetGroups_product hne hpauli hi).2
    have hgate : i.gate? = some .measureProduct := by
      obtain ⟨-, -, rfl⟩ := Instruction.of_make_name hi
      exact Instruction.gate?_of_name rfl
    have hclassical : (product.terms.map fun term =>
        Target.pauli term.2 (indexIn b.layout term.1)).any Target.isClassical = false := by
      simp [Target.isClassical, Target.isRecord, Target.isSweep]
    have hfactors : (product.terms.map fun term =>
        Target.pauli term.2 (indexIn b.layout term.1)).filterMap Target.factor? =
          factorsIn b.layout product := by
      rw [List.filterMap_map]
      exact congrFun List.filterMap_eq_map product.terms
    have hactions : i.actions = [.measure (factorsIn b.layout product)] := by
      rw [Instruction.actions_of_gate? hgate, hgroups, List.flatMap_singleton,
        Instruction.pieceActions, hclassical, hfactors]
      rfl
    have hpush := performs_push i (Tracker.extends_record ht)
    rw [hactions] at hpush
    rw [hidentity]
    exact hpush

theorem performs_detector {refs : List Key} {options : DetectorOptions}
    (h : Gives (detector refs options) b () b') : Performs b b' [] [] [] := by
  obtain ⟨targets, args, i, -, -, hi, rfl⟩ := detector_spec h
  obtain ⟨-, hkind, -⟩ := Instruction.of_make_name hi
  exact performs_push_metadata (by rw [hkind]; rfl)

/-! ## Interactions -/

/-- A pair as it is written under a controlled Pauli: a controlled Z leads with the first qubit in
canonical order. -/
def writtenPair (basis : Basis) (p : Coord × Coord) : Coord × Coord :=
  if basis = .z then orientPair p else p

/-- The controlled Pauli that is written for a pair. -/
def pairAction (layout : OrderedMap Coord Nat) (basis : Basis) (p : Coord × Coord) : Action :=
  .controlled .z basis (indexIn layout (writtenPair basis p).1)
    (indexIn layout (writtenPair basis p).2)

/-- Either qubit of a controlled Z may lead. -/
theorem sameEffect_pairAction (layout : OrderedMap Coord Nat) (basis : Basis) (p : Coord × Coord) :
    Action.SameEffect [pairAction layout basis p]
      [.controlled .z basis (indexIn layout p.1) (indexIn layout p.2)] := by
  unfold pairAction writtenPair
  by_cases hz : basis = .z
  · subst hz
    rcases orientPair_cases p with hsame | hswap
    · rw [if_pos rfl, hsame]
      exact .refl _
    · rw [if_pos rfl, hswap]
      exact Action.sameEffect_controlled_comm .z .z _ _
  · rw [if_neg hz]
    exact .refl _

theorem arrangePairs_controlled (basis : Basis) (pairs : List (Coord × Coord)) :
    arrangePairs (.controlled .z basis) pairs =
      (.controlled .z basis, (pairs.mergeSort pairLe).map (writtenPair basis)) := by
  have hkept : (pairs.mergeSort pairLe).map (fun p => p) = pairs.mergeSort pairLe := List.map_id' _
  cases basis with
  | x | y => exact congrArg (Prod.mk _) hkept.symm
  | z => rfl

theorem actions_pairsInstruction (layout : OrderedMap Coord Nat) (basis : Basis)
    (pairs : List (Coord × Coord)) :
    (pairsInstruction layout (.controlled .z basis) (pairs.map (writtenPair basis))).actions =
      pairs.map (pairAction layout basis) := by
  have hpairs := @Instruction.actions_pairs (.controlled .z basis) rfl
    (pairs.map fun p =>
      (indexIn layout (writtenPair basis p).1, indexIn layout (writtenPair basis p).2))
  rw [List.flatMap_map, List.flatMap_map] at hpairs
  rw [pairsInstruction, Instruction.onQubits, List.map_flatMap, List.flatMap_map,
    List.map_eq_flatMap]
  exact hpairs

theorem performs_gate2 {basis : Basis} {pairs : List (Coord × Coord)}
    (h : Gives (gate2 (Gate.controlled .z basis).name pairs) b () b') :
    Known b pairs ∧
      Performs b b' ((pairs.mergeSort pairLe).map (pairAction b.layout basis)) [] [] := by
  obtain ⟨hknown, rfl⟩ := gives_gate2 (Gate.lookup_name _) h
  refine ⟨hknown, ?_⟩
  rw [arrangePairs_controlled]
  dsimp only [writePairs]
  split
  · next hempty =>
    have hnone : pairs.mergeSort pairLe = [] := List.map_eq_nil_iff.1 (List.isEmpty_iff.1 hempty)
    rw [hnone]
    exact performs_refl b
  · have hpush := performs_push (pairsInstruction b.layout (.controlled .z basis)
      ((pairs.mergeSort pairLe).map (writtenPair basis))) (Tracker.extends_refl b.tracker)
    rw [actions_pairsInstruction] at hpush
    exact hpush

/-! ## Rounds -/

/-- The operations of the interactions of a patch. -/
def patchActions (layout : OrderedMap Coord Nat) (patch : Patch) : List Action :=
  (patchPairs patch).map fun entry => pairAction layout entry.1 entry.2

/-- The measurement qubits of a patch in canonical order. -/
def ancillas (patch : Patch) : List Coord := Coord.sort (patch.tiles.map Tile.measurementQubit)

theorem mem_ancillas {patch : Patch} {t : Tile} (ht : t ∈ patch.tiles) :
    t.measurementQubit ∈ ancillas patch :=
  List.mem_mergeSort.2 (List.mem_map_of_mem ht)

/-- The keys of the measurement qubits of a patch in a layer, in canonical order. -/
def ancillaKeys (patch : Patch) (layer : String) : List Key :=
  (ancillas patch).map fun q => .atLayer (.coord q) layer

/-- A step of a patch performs its interactions, basis by basis. -/
theorem performs_step {layout : OrderedMap Coord Nat} {patch : Patch} {step : Nat}
    (hb : b.layout = layout)
    (h : Gives (do
      Basis.all.forM fun basis =>
        gate2 (Gate.controlled .z basis).name (slotPairs patch step basis)
      tick) b () b') :
    (∀ basis ∈ Basis.all, ∀ p ∈ slotPairs patch step basis,
      (layout.get? p.1).isSome = true ∧ (layout.get? p.2).isSome = true) ∧
    Performs b b' (Basis.all.flatMap fun basis =>
      ((slotPairs patch step basis).mergeSort pairLe).map (pairAction layout basis)) [] [] := by
  obtain ⟨_, mid, hgates, htick⟩ := gives_bind.1 h
  have hall := performs_forM_unbound (fun basis _ c c' hc hgate => by
    have hone := performs_gate2 hgate
    rwa [Known, hc] at hone) hb hgates
  have hboth := hall.2.trans (performs_tick htick)
  rw [List.append_nil] at hboth
  exact ⟨hall.1, hboth⟩

theorem patchActions_eq (layout : OrderedMap Coord Nat) (patch : Patch) :
    patchActions layout patch = (List.range (patchDepth patch)).flatMap fun step =>
      Basis.all.flatMap fun basis =>
        ((slotPairs patch step basis).mergeSort pairLe).map (pairAction layout basis) := by
  rw [patchActions, patchPairs, List.map_flatMap]
  apply List.flatMap_congr
  intro step _
  rw [List.map_flatMap]
  apply List.flatMap_congr
  intro basis _
  rw [List.map_map]
  rfl

/-- The qubits of a patch have an index. -/
def KnowsPatch (b : Builder) (patch : Patch) : Prop :=
  ∀ t ∈ patch.tiles, (b.layout.get? t.measurementQubit).isSome = true ∧
    ∀ term ∈ t.dataTerms, (b.layout.get? term.1).isSome = true

instance (b : Builder) (patch : Patch) : Decidable (KnowsPatch b patch) :=
  inferInstanceAs (Decidable (∀ t ∈ patch.tiles, _))

/-- Measuring through the measurement qubits resets them, performs the interactions and measures
them. -/
theorem performs_measureWithAncillas {patch : Patch} {layer : String}
    (h : Gives (measureWithAncillas patch layer) b () b') :
    KnowsPatch b patch ∧
    Performs b b'
      ((ancillas patch).map (fun q => .prepare (indexIn b.layout q) .x) ++
        patchActions b.layout patch ++
        (ancillas patch).map fun q => .measure [(indexIn b.layout q, .x)])
      (ancillaKeys patch layer) (ancillaKeys patch layer) := by
  unfold measureWithAncillas at h
  obtain ⟨_, mid, hreset, h⟩ := gives_bind.1 h
  obtain ⟨_, mid', htick, h⟩ := gives_bind.1 h
  obtain ⟨_, last, hsteps, hmeasure⟩ := gives_bind.1 h
  have hfirst := (performs_reset hreset).trans (performs_tick htick)
  obtain ⟨hknown, hgates⟩ := performs_forM_unbound
    (fun step _ c c' hc hstep => performs_step hc hstep) hfirst.layout hsteps
  have hbefore := hfirst.trans hgates
  have hmeasured := known_of_measure hmeasure
  have hlast := performs_measure hmeasure
  rw [hbefore.layout] at hmeasured hlast
  constructor
  · intro t ht
    refine ⟨?_, fun term hterm => ?_⟩
    · exact hmeasured t.measurementQubit (mem_ancillas ht)
    · have hentry : (term.2, (t.measurementQubit, term.1)) ∈ patchPairs patch :=
        mem_patchPairs_iff.2 ⟨t, ht, rfl, hterm⟩
      obtain ⟨step, hstep, basis, hbasis, hp, -⟩ := mem_patchPairs hentry
      exact (hknown step hstep basis hbasis _ hp).2
  · have hall := hbefore.trans hlast
    rw [List.append_nil, ← patchActions_eq] at hall
    exact hall

/-! ## Runs that succeed -/

theorem Gives.succeeds_bind {α β : Type} {x : Build α} {f : α → Build β} {a : α} {mid : Builder}
    (h : Gives x b a mid) (hf : Succeeds (f a) mid) : Succeeds (x >>= f) b := by
  obtain ⟨c, b', hgives⟩ := hf
  exact ⟨c, b', gives_bind.2 ⟨a, mid, h, hgives⟩⟩

theorem isSome_of_mem_sort {qubits : List Coord}
    (h : ∀ q ∈ qubits, (b.layout.get? q).isSome = true) :
    ∀ q ∈ Coord.sort qubits, (b.layout.get? q).isSome = true := by
  intro q hq
  exact h q (List.mem_mergeSort.1 hq)

theorem succeeds_reset {basis : Basis} {qubits : List Coord}
    (h : ∀ q ∈ qubits, (b.layout.get? q).isSome = true) :
    Succeeds (gate (Gate.reset basis).name qubits []) b := by
  unfold gate
  refine (gives_ask.2 ⟨Gate.lookup_name (.reset basis), rfl⟩).succeeds_bind ?_
  dsimp only [Gate.kind]
  split
  · exact ⟨(), b, gives_pure.2 ⟨rfl, rfl⟩⟩
  · refine (gives_ask.2 ⟨indicesOf_of_isSome (isSome_of_mem_sort h), rfl⟩).succeeds_bind ?_
    exact ⟨(), _, gives_append.2 ⟨_, make_of_isSingle rfl _, rfl⟩⟩

theorem firstTaken?_eq_none {t : Tracker} {seen keys : List Key} (hnodup : keys.Nodup)
    (hfresh : ∀ key ∈ keys, t.find? key = none ∧ key ∉ seen) : firstTaken? t seen keys = none := by
  induction keys generalizing seen with
  | nil => rfl
  | cons key keys ih =>
    rw [List.nodup_cons] at hnodup
    rw [List.forall_mem_cons] at hfresh
    have hnew : (t.contains key || seen.contains key) = false := by
      simp [Tracker.contains, hfresh.1.1, hfresh.1.2]
    rw [firstTaken?, hnew]
    refine ih hnodup.2 fun other hother => ⟨(hfresh.2 other hother).1, ?_⟩
    rw [List.mem_cons, not_or]
    refine ⟨?_, (hfresh.2 other hother).2⟩
    rintro rfl
    exact hnodup.1 hother

theorem succeeds_measure {qubits : List Coord} {basis : Basis} {keyOf : Coord → Key}
    {layer : String} (h : ∀ q ∈ qubits, (b.layout.get? q).isSome = true)
    (hnodup : ((Coord.sort qubits).map fun q => Key.atLayer (keyOf q) layer).Nodup)
    (hfresh : ∀ key ∈ (Coord.sort qubits).map fun q => Key.atLayer (keyOf q) layer,
      b.tracker.find? key = none)
    (hroom : b.tracker.count + ((Coord.sort qubits).map fun q => Key.atLayer (keyOf q) layer).length
      < Text.longSize) : Succeeds (measure qubits basis keyOf layer) b := by
  unfold measure
  dsimp only
  split
  · exact ⟨(), b, gives_pure.2 ⟨rfl, rfl⟩⟩
  · have hnone := @firstTaken?_eq_none b.tracker [] _ hnodup fun key hkey =>
      ⟨hfresh key hkey, List.not_mem_nil⟩
    refine (gives_ask.2 ⟨indicesOf_of_isSome (isSome_of_mem_sort h), rfl⟩).succeeds_bind ?_
    refine (gives_get.2 ⟨rfl, rfl⟩).succeeds_bind ?_
    rw [hnone]
    refine (gives_reserve.2 ⟨hroom, rfl⟩).succeeds_bind ?_
    refine (gives_append.2 ⟨_, make_of_isSingle rfl _, rfl⟩).succeeds_bind ?_
    obtain ⟨t, ht⟩ := exists_recordAll hnone hroom fun key hkey => .inl hkey
    exact succeeds_forM_record ht

theorem succeeds_gate2 {basis : Basis} {pairs : List (Coord × Coord)} (h : Known b pairs) :
    Succeeds (gate2 (Gate.controlled .z basis).name pairs) b :=
  ⟨(), _, outcome_gate2 (Gate.lookup_name _) rfl h⟩

/-- Calls that succeed on every builder of a layout, and keep it, succeed one after another. -/
theorem succeeds_forM_of_layout {α : Type} {f : α → Build Unit} {layout : OrderedMap Coord Nat}
    {items : List α}
    (hf : ∀ x ∈ items, ∀ c : Builder, c.layout = layout → Succeeds (f x) c ∧
      ∀ c', Gives (f x) c () c' → c'.layout = layout)
    (hb : b.layout = layout) : Succeeds (items.forM f) b := by
  induction items generalizing b with
  | nil => exact ⟨(), b, gives_pure.2 ⟨rfl, rfl⟩⟩
  | cons x items ih =>
    rw [List.forall_mem_cons] at hf
    obtain ⟨⟨_, mid, hx⟩, hlayout⟩ := hf.1 b hb
    obtain ⟨_, last, hrest⟩ := ih hf.2 (hlayout mid hx)
    exact ⟨(), last, gives_forM_cons.2 ⟨mid, hx, hrest⟩⟩

theorem succeeds_step {patch : Patch} {step : Nat}
    (h : ∀ basis, Known b (slotPairs patch step basis)) :
    Succeeds (do
      Basis.all.forM fun basis =>
        gate2 (Gate.controlled .z basis).name (slotPairs patch step basis)
      tick) b := by
  have hgates : Succeeds (Basis.all.forM fun basis =>
      gate2 (Gate.controlled .z basis).name (slotPairs patch step basis)) b := by
    refine succeeds_forM_of_layout (fun basis _ c hc => ⟨?_, fun c' hgate => ?_⟩) rfl
    · apply succeeds_gate2
      rw [Known, hc]
      exact h basis
    · exact (performs_gate2 hgate).2.layout.trans hc
  obtain ⟨_, mid, hmid⟩ := hgates
  exact hmid.succeeds_bind ⟨(), _, gives_modify.2 rfl⟩

/-- The schedule of a patch of known qubits succeeds. -/
theorem succeeds_schedule {patch : Patch} (h : KnowsPatch b patch) :
    Succeeds ((List.range (patchDepth patch)).forM fun step => do
      Basis.all.forM fun basis =>
        gate2 (Gate.controlled .z basis).name (slotPairs patch step basis)
      tick) b := by
  refine succeeds_forM_of_layout (fun step _ c hc => ⟨?_, fun c' hstep => ?_⟩) rfl
  · apply succeeds_step
    intro basis p hp
    obtain ⟨t, ht, hcheck, hterm⟩ := mem_slotPairs hp
    have hdata := (h t ht).2 (p.2, basis) hterm
    rw [hc, ← hcheck]
    exact ⟨(h t ht).1, hdata⟩
  · exact (performs_step hc hstep).2.layout.trans hc

/-- Measuring through the measurement qubits succeeds on known qubits and fresh keys that the record
has room for. -/
theorem succeeds_measureWithAncillas {patch : Patch} {layer : String} (hknown : KnowsPatch b patch)
    (hnodup : (ancillaKeys patch layer).Nodup)
    (hfresh : ∀ key ∈ ancillaKeys patch layer, b.tracker.find? key = none)
    (hroom : b.tracker.count + (ancillaKeys patch layer).length < Text.longSize) :
    Succeeds (measureWithAncillas patch layer) b := by
  have hqubits : ∀ q ∈ patch.tiles.map Tile.measurementQubit,
      (b.layout.get? q).isSome = true := by
    intro q hq
    obtain ⟨t, ht, rfl⟩ := List.mem_map.1 hq
    exact (hknown t ht).1
  have hreset : Succeeds
      (gate (Gate.reset .x).name (patch.tiles.map Tile.measurementQubit) []) b :=
    succeeds_reset hqubits
  obtain ⟨_, first, hfirst⟩ := hreset
  have hready := (performs_reset hfirst).trans (performs_tick (gives_modify.2 rfl))
  refine hfirst.succeeds_bind ((gives_modify.2 rfl : Gives tick first () _).succeeds_bind ?_)
  have hknown' : KnowsPatch { first with circuit := first.circuit.tick } patch := by
    rwa [KnowsPatch, hready.layout]
  obtain ⟨_, last, hlast⟩ := succeeds_schedule hknown'
  have hdone := hready.trans (performs_forM_unbound
    (fun step _ c c' hc hstep => performs_step hc hstep) hready.layout hlast).2
  refine hlast.succeeds_bind (succeeds_measure ?_ hnodup ?_ ?_)
  · rw [hdone.layout]
    exact hqubits
  · intro key hkey
    rw [hdone.tracker.other key (by simp)]
    exact hfresh key hkey
  · rw [hdone.tracker.count]
    exact hroom

/-- The measurements of all tiles, in one of the ways of measuring a patch. -/
def measureTiles (patch : Patch) (save : String) : CheckStyle → Build Unit
  | .product => patch.tiles.forM fun tile => measureProduct tile.product (tileKey tile save) none
  | .ancilla => measureWithAncillas patch save

/-- Detectors perform nothing and bind no keys. -/
theorem performs_detectors {patch : Patch} {save layer : String}
    (h : Gives (patch.tiles.forM fun tile =>
      detector [tileKey tile save, tileKey tile layer] (.placed tile.measurementQubit)) b () b') :
    Performs b b' [] [] [] := by
  have hall := performs_forM_unbound (p := fun _ => True)
    (fun tile _ c c' _ hone => ⟨trivial, performs_detector hone⟩) rfl h
  have hnil : patch.tiles.flatMap (fun _ => ([] : List Action)) = [] := by simp
  rw [hnil] at hall
  exact hall.2

/-- Detectors, if any, come after the measurements and bind no keys. -/
theorem gives_measurePatch {patch : Patch} {save : String} {compare : Option String}
    {style : CheckStyle} (h : Gives (measurePatch patch save compare style) b () b') :
    ∃ mid, Gives (measureTiles patch save style) b () mid ∧ Performs mid b' [] [] [] := by
  unfold measurePatch at h
  cases style with
  | product | ancilla =>
    obtain ⟨_, mid, hmeasure, hcompare⟩ := gives_bind.1 h
    refine ⟨mid, hmeasure, ?_⟩
    cases compare with
    | none =>
      obtain ⟨-, rfl⟩ := gives_pure.1 hcompare
      exact performs_refl mid
    | some layer => exact performs_detectors hcompare

theorem performs_measurePatch_ancilla {patch : Patch} {save : String} {compare : Option String}
    (h : Gives (measurePatch patch save compare .ancilla) b () b') :
    Performs b b'
      ((ancillas patch).map (fun q => .prepare (indexIn b.layout q) .x) ++
        patchActions b.layout patch ++
        (ancillas patch).map fun q => .measure [(indexIn b.layout q, .x)])
      (ancillaKeys patch save) (ancillaKeys patch save) := by
  obtain ⟨mid, hmeasure, hdetectors⟩ := gives_measurePatch h
  have hall := (performs_measureWithAncillas hmeasure).2.trans hdetectors
  rwa [List.append_nil, List.append_nil] at hall

/-- The tiles whose product is not the identity. -/
def measuredTiles (patch : Patch) : List Tile :=
  patch.tiles.filter fun tile => !tile.product.isIdentity

/-- Measuring with products measures every product that is not the identity. -/
theorem performs_measurePatch_product {patch : Patch} {save : String} {compare : Option String}
    (h : Gives (measurePatch patch save compare .product) b () b') :
    Performs b b'
      ((measuredTiles patch).map fun tile => .measure (factorsIn b.layout tile.product))
      (patch.tiles.map fun tile => tileKey tile save)
      ((measuredTiles patch).map fun tile => tileKey tile save) := by
  obtain ⟨mid, hmeasure, hdetectors⟩ := gives_measurePatch h
  have hall := (performs_forM (p := fun _ => True) (fun tile _ c c' hc hone => by
    have hperforms := performs_measureProduct hone
    rw [hc] at hperforms
    exact ⟨trivial, hperforms⟩) rfl hmeasure).2.trans hdetectors
  rw [Builder.flatMap_unless, Builder.flatMap_unless, List.append_nil, List.append_nil,
    List.append_nil, ← List.map_eq_flatMap] at hall
  exact hall

end Build

end StabCircuit
