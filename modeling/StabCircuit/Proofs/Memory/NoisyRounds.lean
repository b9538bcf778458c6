import StabCircuit.Proofs.Builder.NoiselessCalls
import StabCircuit.Proofs.Memory.Comparisons
import StabCircuit.Proofs.Memory.Pairing
import StabCircuit.Proofs.Patch.DataDetectors
import StabCircuit.Proofs.Patch.Stabilizers

/-!
# Where a memory experiment is noisy

A memory experiment with noise in every round is a first part without noise, the same
noisy round a number of times, and a last part without noise.  In each moment of the
round that has an operation every data qubit gets every channel of the noise once, no
other qubit gets any, and the measurements of the round have the flip probability.
The ancillas of paired observables are no data qubits.
-/

namespace StabCircuit

namespace Circuit

/-! ## Writing after a step boundary -/

theorem foldl_push_eq (is : List Instruction) (c : Circuit) :
    is.foldl push c = (is.foldl pushReversed c.reverse).reverse := by
  induction is generalizing c with
  | nil => rw [List.foldl_nil, List.foldl_nil, List.reverse_reverse]
  | cons i is ih => rw [List.foldl_cons, ih, push, List.reverse_reverse, List.foldl_cons]

/-- What is written after a boundary does not merge with what was written before. -/
theorem foldl_push_of_boundary {c : Circuit} (hc : IsAtBoundary c.reverse) (is : List Instruction) :
    is.foldl push c = c ++ is.foldl push [] := by
  have happend := foldl_pushReversed_append hc is []
  rw [List.nil_append] at happend
  rw [foldl_push_eq, happend, List.reverse_append, List.reverse_reverse, foldl_push_eq is [],
    List.reverse_nil]

theorem isFlat_foldl_push (is : List Instruction) : IsFlat (is.foldl push []) := by
  intro op hop
  rw [foldl_push_eq, List.mem_reverse] at hop
  exact isFlat_foldl_pushReversed is (fun op hop => by cases hop) op hop

theorem settled_foldl_push (is : List Instruction) : Settled (is.foldl push []) := by
  rw [foldl_push_eq]
  exact settled_foldl_pushReversed is trivial

theorem everywhere_foldl_push {p : Instruction → Prop} (hp : Joinable p) {is : List Instruction}
    (his : ∀ i ∈ is, p i) : Everywhere p (is.foldl push []) := by
  rw [foldl_push_eq, everywhere_reverse]
  exact everywhere_foldl_pushReversed hp (everywhere_nil _) his

theorem isAtBoundary_of_endsWithTick {c : Circuit} (h : c.endsWithTick = true) :
    IsAtBoundary c.reverse := by
  intro last rest hlast
  have hend : c.getLast? = some (.instruction last) := by
    rw [← List.head?_reverse, hlast, List.head?_cons]
  simpa [endsWithTick, hend] using h

/-- A body is spliced in after a boundary as it is, once or as a block. -/
theorem pushRepeat_of_boundary {c body : Circuit} {count : Nat} (hcount : count ≠ 0)
    (hc : Settled c) (hboundary : IsAtBoundary c.reverse) (hbody : Settled body) :
    c.pushRepeat count body = c ++ if count = 1 then body else [.block count body] := by
  have hsettled : Settled (c.reverse.reverse ++ body) := by
    rw [List.reverse_reverse]
    refine settled_append.2 ⟨hc, hbody, fun last hlast next _ => ?_⟩
    obtain ⟨rest, hrest⟩ : ∃ rest, c.reverse = last :: rest := by
      rw [← List.head?_eq_some_iff, List.head?_reverse]
      exact hlast
    cases last with
    | block count body => trivial
    | instruction last =>
      cases next with
      | block count body => trivial
      | instruction next => exact fuses_of_isTick (hboundary last rest hrest) next
  rw [pushRepeat, pushOperation]
  by_cases hone : count = 1
  · rw [if_pos hone, hone, addReversed, addAllReversed_of_settled hsettled]
    simp
  · rw [if_neg hone, addReversed_block (by omega), List.reverse_cons, List.reverse_reverse]

/-- Instructions of a part that ends with a boundary, spliced in a number of times. -/
theorem unrolled_pushRepeat {c body : Circuit} {count : Nat} (hcount : count ≠ 0) (hc : Settled c)
    (hboundary : IsAtBoundary c.reverse) (hbody : Settled body) :
    unrolled (fun i => [i]) (c.pushRepeat count body) =
      unrolled (fun i => [i]) c ++
        (List.replicate count (unrolled (fun i => [i]) body)).flatten := by
  rw [pushRepeat_of_boundary hcount hc hboundary hbody, unrolled_append]
  congr 1
  split
  · next hone => simp [hone]
  · rw [unrolled_singleton, unrolledOperation]

theorem isAtBoundary_pushRepeat {c body : Circuit} {count : Nat} (hcount : count ≠ 0)
    (hc : Settled c) (hboundary : IsAtBoundary c.reverse) (hbody : Settled body)
    (hend : body.endsWithTick = true) : IsAtBoundary (c.pushRepeat count body).reverse := by
  rw [pushRepeat_of_boundary hcount hc hboundary hbody, List.reverse_append]
  split
  · have hsome : body.reverse ≠ [] := by
      rintro hnil
      rw [List.reverse_eq_nil_iff.1 hnil] at hend
      cases hend
    obtain ⟨last, rest, hreverse⟩ := List.exists_cons_of_ne_nil hsome
    have hlast := isAtBoundary_of_endsWithTick hend
    rw [hreverse] at hlast ⊢
    intro i more hmore
    cases hmore
    exact hlast i rest rfl
  · intro i more hmore
    cases hmore

end Circuit

namespace MemoryExperiment

open Circuit PauliProduct

variable {e : MemoryExperiment} {b b' : Builder} {observables : List PauliProduct}

/-! ## The noise of a round -/

/-- Rules of a round are found by the kind of the piece. -/
theorem ruleFor_roundModel (noise : NoiseRule) (piece : Instruction) :
    (roundModel noise).ruleFor piece =
      if piece.kind.isMetadata || piece.kind.isNoise || piece.isClassicallyControlled then .exempt
      else
        match (roundModel noise).wildcard? piece.kind with
        | some rule => .rule rule
        | none => .missing := by
  have hname : (roundModel noise).gateRule? piece.name = none := rfl
  have hbases : (piece.measuredBases?.bind (roundModel noise).measureRules.get?) = none := by
    cases piece.measuredBases? <;> rfl
  unfold NoiseModel.ruleFor
  cases (roundModel noise).wildcard? piece.kind <;> simp [hname, hbases]

theorem onlyFlips_roundModel (noise : NoiseRule) :
    (roundModel noise).OnlyFlips noise.flipResult := by
  have hzero : (0 : Scalar).numLt 0 = false := by decide +kernel
  refine ⟨hzero, hzero, fun piece rule hrule => ?_, fun piece hkind hplain => ?_⟩
  · rw [ruleFor_roundModel] at hrule
    split at hrule
    · cases hrule
    · split at hrule
      · next found hfound =>
        cases hrule
        cases hk : piece.kind <;> rw [hk] at hfound <;> cases hfound <;> rfl
      · cases hrule
  · refine ⟨NoiseRule.silent.flipping noise.flipResult, ?_, rfl⟩
    rw [ruleFor_roundModel, hplain]
    cases hk : piece.kind <;> rw [hk] at hkind <;> first | rfl | cases hkind

/-! ## The qubits of an experiment -/

/-- The indices of the data qubits. -/
def dataIndices (e : MemoryExperiment) (observables : List PauliProduct) : List Nat :=
  e.patch.dataSet.toList.map (indexIn (e.layoutFor observables))

theorem isSome_layoutFor {q : Coord} (h : q ∈ e.qubits observables) :
    ((e.layoutFor observables).get? q).isSome = true := by
  have hfirst : ((Coord.distinct (e.qubits observables)).zipIdx.map Prod.fst) =
      Coord.distinct (e.qubits observables) := List.zipIdx_map_fst _ _
  have hnodup : ((Coord.distinct (e.qubits observables)).zipIdx.map Prod.fst).Nodup := by
    rw [hfirst]
    exact (OrderedSet.ofList (e.qubits observables)).nodup_keys
  have hkeys := (OrderedMap.ofList_perm hnodup).map Prod.fst
  rw [hfirst] at hkeys
  exact OrderedMap.mem_keys_iff.1 (hkeys.mem_iff.2 (OrderedSet.mem_keys_ofList.2 h))

/-- Data qubits are qubits of the patch and of the experiment. -/
theorem mem_of_mem_dataSet {q : Coord} (h : q ∈ e.patch.dataSet.toList) :
    q ∈ e.patch.usedSet.toList ∧ q ∈ e.qubits observables := by
  rw [PairedObservables.mem_usedSet, qubits, List.mem_append, List.mem_append]
  exact ⟨.inl h, .inl (.inl h)⟩

/-- So are measurement qubits, when the tiles are measured through them. -/
theorem mem_of_mem_measureSet (hstyle : e.style = .ancilla) {q : Coord}
    (h : q ∈ e.patch.measureSet.toList) :
    q ∈ e.patch.usedSet.toList ∧ q ∈ e.qubits observables := by
  rw [PairedObservables.mem_usedSet, qubits, List.mem_append, List.mem_append, if_pos hstyle]
  exact ⟨.inr h, .inl (.inr h)⟩

/-- The indices of qubits that all have one. -/
theorem indexSet_eq_ok {fresh : Builder} {qubits : List Coord} {indices : OrderedSet Nat}
    (h : indexSet fresh qubits = .ok indices) :
    indices = OrderedSet.ofList (qubits.map (indexIn fresh.layout)) ∧
      ∀ q ∈ qubits, (fresh.layout.get? q).isSome = true := by
  obtain ⟨found, hfound, rfl⟩ := map_eq_ok.1 h
  have hlookup := lift_eq_ok.1 hfound
  refine ⟨?_, Build.isSome_of_mapM_indexOf hlookup⟩
  rw [eq_map_of_mapM (fun _ _ _ hindex => Build.eq_indexIn_of_indexOf hindex) hlookup]

/-- The qubits of a patch that an experiment may measure in a round. -/
theorem mem_flatten_roundResults {index : Nat} {layout : OrderedMap Coord Nat}
    (h : index ∈ (e.roundResults layout).flatten) :
    ∃ q ∈ e.patch.usedSet.toList, q ∈ e.qubits observables ∧ indexIn layout q = index := by
  obtain ⟨result, hresult, hindex⟩ := List.mem_flatten.1 h
  unfold roundResults at hresult
  cases hstyle : e.style with
  | product =>
    rw [hstyle] at hresult
    obtain ⟨tile, htile, rfl⟩ := List.mem_map.1 hresult
    obtain ⟨term, hterm, rfl⟩ := List.mem_map.1 hindex
    have hqubit : term.1 ∈ tile.product.qubits := List.mem_map_of_mem hterm
    have hdata : term.1 ∈ e.patch.dataSet.toList :=
      Build.mem_patchData (List.mem_filter.1 htile).1 (Tile.mem_dataSet_of_mem_product hqubit)
    obtain ⟨hused, hq⟩ := mem_of_mem_dataSet hdata
    exact ⟨term.1, hused, hq, rfl⟩
  | ancilla =>
    rw [hstyle] at hresult
    obtain ⟨q, hq, rfl⟩ := List.mem_map.1 hresult
    rw [List.mem_singleton] at hindex
    have horder : q ∈ Coord.sort (e.patch.tiles.map Tile.measurementQubit) := by
      unfold roundOrder at hq
      rwa [hstyle] at hq
    have hmeasure : q ∈ e.patch.measureSet.toList :=
      OrderedSet.mem_keys_ofList.2 ((List.mergeSort_perm _ _).mem_iff.1 horder)
    obtain ⟨hused, hq⟩ := mem_of_mem_measureSet hstyle hmeasure
    exact ⟨q, hused, hq, hindex.symm⟩

/-! ## Stages -/

theorem addsNoiseless_forQubits (qubits : List Coord) :
    Build.AddsNoiseless (Builder.forQubits qubits).fork (Builder.forQubits qubits) := by
  refine ⟨rfl, ((Coord.distinct qubits).zipIdx).map fun entry =>
    Builder.declaration entry.2 entry.1, ?_, ?_⟩
  · rw [List.forall_mem_map]
    intro entry _
    refine Instruction.isNoiseless_of_isMetadata (Builder.isPlain_declaration _ _).isSound ?_
    rw [Instruction.kind_of_gate? (g := .qubitCoords) (Instruction.gate?_of_name rfl)]
    rfl
  · rw [List.foldl_map]
    rfl

theorem addsNoiseless_measureObservables {label : String}
    (h : Build.Gives (measureObservables label observables) b () b') :
    Build.AddsNoiseless b b' :=
  Build.addsNoiseless_forM (fun _ _ _ _ hstep => by
    obtain ⟨_, mid, hmeasure, hinclude⟩ := Build.gives_bind.1 hstep
    exact (Build.addsNoiseless_measureProduct hmeasure).trans
      (Build.addsNoiseless_includeObservable hinclude)) h

theorem addsNoiseless_round (h : Build.Gives e.round b () b') : Build.AddsNoiseless b b' := by
  obtain ⟨_, mid, hpatch, h⟩ := Build.gives_bind.1 h
  obtain ⟨_, last, hshift, htick⟩ := Build.gives_bind.1 h
  exact (Build.addsNoiseless_measurePatch hpatch).trans
    ((Build.addsNoiseless_shiftCoords hshift).trans (Build.addsNoiseless_tick htick))

/-- What the first stage leaves: instructions without noise up to a step boundary, and the indices
of the ancillas and of the data qubits. -/
structure Begins (e : MemoryExperiment) (paired : PairedObservables) (stage : Stage) : Prop where
  observables : stage.observables = paired.observables
  builder : Build.AddsNoiseless (Builder.forQubits (e.qubits paired.observables)).fork stage.builder
  ends : stage.builder.circuit.endsWithTick = true
  immune : stage.immune =
    OrderedSet.ofList (paired.ancillas.map (indexIn (e.layoutFor paired.observables)))
  data : stage.data = OrderedSet.ofList (e.dataIndices paired.observables)
  known : ∀ a ∈ paired.ancillas, ((e.layoutFor paired.observables).get? a).isSome = true

theorem begins_of_start {stage : Stage} {paired : PairedObservables}
    (hpaired : PairedObservables.pair e.patch e.observablesX e.observablesZ e.ancillas = .ok paired)
    (h : e.start = .ok stage) : e.Begins paired stage := by
  unfold start at h
  obtain ⟨_, -, h⟩ := bind_eq_ok.1 h
  obtain ⟨other, hother, h⟩ := bind_eq_ok.1 h
  obtain rfl : paired = other := Except.ok.inj (hpaired.symm.trans hother)
  obtain ⟨immune, himmune, h⟩ := bind_eq_ok.1 h
  obtain ⟨data, hdata, h⟩ := bind_eq_ok.1 h
  obtain ⟨builder, hbuild, h⟩ := bind_eq_ok.1 h
  cases h
  obtain ⟨_, mid, hobservables, hbuild⟩ := Build.gives_bind.1 (gives_of_build hbuild)
  obtain ⟨_, last, hpatch, htick⟩ := Build.gives_bind.1 hbuild
  constructor
  · rfl
  · exact (addsNoiseless_forQubits _).trans ((addsNoiseless_measureObservables hobservables).trans
      ((Build.addsNoiseless_measurePatch hpatch).trans (Build.addsNoiseless_tick htick)))
  · obtain rfl := Build.gives_modify.1 htick
    exact endsWithTick_tick last.circuit
  · exact (indexSet_eq_ok himmune).1
  · exact (indexSet_eq_ok hdata).1
  · exact (indexSet_eq_ok himmune).2

theorem free_ancillas {paired : PairedObservables}
    (hpaired : PairedObservables.pair e.patch e.observablesX e.observablesZ e.ancillas =
      .ok paired) : ∀ a ∈ paired.ancillas, a ∉ e.patch.usedSet.toList := by
  rcases PairedObservables.pair_cases hpaired with ⟨hnone, -⟩ | hpairing
  · rw [hnone]
    simp
  · exact hpairing.free

variable {paired : PairedObservables} {stage : Stage}

/-- A qubit of the patch has another index than every ancilla. -/
theorem Begins.notMem_immune (h : e.Begins paired stage)
    (hpaired : PairedObservables.pair e.patch e.observablesX e.observablesZ e.ancillas = .ok paired)
    {q : Coord} (hused : q ∈ e.patch.usedSet.toList) (hq : q ∈ e.qubits paired.observables) :
    indexIn (e.layoutFor paired.observables) q ∉
      paired.ancillas.map (indexIn (e.layoutFor paired.observables)) := by
  intro hmem
  obtain ⟨a, ha, hsame⟩ := List.mem_map.1 hmem
  have hcanonical : e.layoutFor paired.observables =
      (Builder.forQubitsWith id (e.qubits paired.observables)).layout := rfl
  obtain rfl : a = q :=
    Build.eq_of_indexIn_eq hcanonical (h.known a ha) (isSome_layoutFor hq) hsame
  exact free_ancillas hpaired a ha hused

theorem Begins.notMem_of_mem_dataIndices (h : e.Begins paired stage)
    (hpaired : PairedObservables.pair e.patch e.observablesX e.observablesZ e.ancillas = .ok paired)
    {q : Nat} (hq : q ∈ e.dataIndices paired.observables) :
    q ∉ paired.ancillas.map (indexIn (e.layoutFor paired.observables)) := by
  obtain ⟨d, hd, rfl⟩ := List.mem_map.1 hq
  obtain ⟨hused, hqubit⟩ := mem_of_mem_dataSet hd
  exact h.notMem_immune hpaired hused hqubit

/-- The immune qubits are the ancillas. -/
theorem Begins.contains_immune (h : e.Begins paired stage) {q : Nat}
    (hq : q ∉ paired.ancillas.map (indexIn (e.layoutFor paired.observables))) :
    stage.immune.contains q = false := by
  rw [Bool.eq_false_iff]
  intro himmune
  rw [h.immune] at himmune
  exact hq (OrderedSet.mem_keys_ofList.1 (OrderedMap.contains_iff_mem_keys.1 himmune))

/-- The qubits with noise of every moment are the data qubits. -/
theorem Begins.isNoisy_eq (h : e.Begins paired stage)
    (hpaired : PairedObservables.pair e.patch e.observablesX e.observablesZ e.ancillas = .ok paired)
    (model : NoiseModel) (q : Nat) :
    NoiseContext.isNoisy ⟨model, stage.immune, stage.data⟩ q =
      decide (q ∈ e.dataIndices paired.observables) := by
  have hdata : stage.data.contains q = true ↔ q ∈ e.dataIndices paired.observables := by
    rw [OrderedMap.contains_iff_mem_keys, h.data]
    exact OrderedSet.mem_keys_ofList
  rw [NoiseContext.isNoisy, Bool.eq_iff_iff, Bool.and_eq_true, hdata, Bool.not_eq_true',
    decide_eq_true_eq]
  exact and_iff_left_of_imp fun hq =>
    h.contains_immune (h.notMem_of_mem_dataIndices hpaired hq)

theorem unrolled_results (c : Circuit) :
    (unrolled (fun i => [i]) c).flatMap Instruction.results =
      (unrolled (Instruction.events false) c).filterMap RecordEvent.measured? := by
  rw [filterMap_unrolled, funext Instruction.filterMap_events, ← unrolled_eq_flatMap]

/-- A round is without noise, and what it measures keeps away from the ancillas. -/
theorem Begins.isExposed_round (h : e.Begins paired stage)
    (hpaired : PairedObservables.pair e.patch e.observablesX e.observablesZ e.ancillas = .ok paired)
    {c : Circuit} (hc : IsFlat c) (hnoiseless : Everywhere Instruction.IsNoiseless c)
    (hresults : (unrolled (fun i => [i]) c).flatMap Instruction.results =
      e.roundResults (e.layoutFor paired.observables)) (model : NoiseModel) :
    Everywhere (NoiseContext.IsExposed ⟨model, stage.immune, stage.data⟩) c := by
  intro i hi
  refine ⟨hnoiseless i hi, fun hkind q hq => ?_⟩
  rw [← Instruction.flatMap_qubit?_targetGroups] at hq
  obtain ⟨group, hgroup, hq⟩ := List.mem_flatMap.1 hq
  have hresult : group.filterMap Target.qubit? ∈ i.results := by
    rw [Instruction.results, if_pos hkind]
    exact List.mem_map_of_mem hgroup
  have hround : q ∈ (e.roundResults (e.layoutFor paired.observables)).flatten := by
    rw [← hresults, hc.unrolled_eq]
    exact List.mem_flatten.2 ⟨_, List.mem_flatMap.2 ⟨i, hi, hresult⟩, hq⟩
  obtain ⟨r, hused, hqubit, rfl⟩ := mem_flatten_roundResults hround
  exact h.contains_immune (h.notMem_immune hpaired hused hqubit)

/-! ## The parts of an experiment -/

/-- A part that is written from its start is without noise when its instructions are. -/
theorem noiseless_of_adds (h : Build.AddsNoiseless b b') (hb : b.circuit = []) :
    IsFlat b'.circuit ∧ Settled b'.circuit ∧ Everywhere Instruction.IsNoiseless b'.circuit := by
  obtain ⟨is, his, hcircuit⟩ := h.circuit
  rw [hcircuit, hb]
  exact ⟨isFlat_foldl_push is, settled_foldl_push is,
    everywhere_foldl_push joinable_isNoiseless his⟩

theorem endsWithTick_map_instruction (ks : List Instruction) :
    Circuit.endsWithTick (ks.map .instruction) = ks.getLast?.any Instruction.isTick := by
  rw [endsWithTick, List.getLast?_map]
  cases ks.getLast? <;> rfl

variable {events : List RecordEvent} {layer : String}

/-- The first stage writes instructions without noise: the observables, and a round. -/
theorem Begins.firstPart (h : e.Begins paired stage)
    (hready : e.Ready paired.observables "init" stage.builder
      (paired.observables.zipIdx.flatMap (observableEvents (e.layoutFor paired.observables)) ++
        (e.roundResults (e.layoutFor paired.observables)).map .result)) :
    Settled stage.builder.circuit ∧ ∃ first : List Instruction,
      stage.builder.circuit = first.map .instruction ∧
        first.getLast?.any Instruction.isTick = true ∧ (∀ i ∈ first, i.IsNoiseless) ∧
          first.flatMap Instruction.results =
            observedResults (e.layoutFor paired.observables) paired.observables ++
              e.roundResults (e.layoutFor paired.observables) := by
  obtain ⟨hflat, hsettled, hnoiseless⟩ := noiseless_of_adds h.builder rfl
  refine ⟨hsettled, instructions stage.builder.circuit, hflat.eq_map, ?_, hnoiseless, ?_⟩
  · rw [← endsWithTick_map_instruction, ← hflat.eq_map]
    exact h.ends
  · rw [← hflat.unrolled_eq, unrolled_results, hready.events, List.filterMap_append,
      filterMap_observableEvents, filterMap_result]
    rfl

/-- The body of the loop: noise of every moment, and the measurements of the tiles. -/
theorem Begins.noisyBody {loop : Builder} {body : Circuit} (h : e.Begins paired stage)
    (hpaired : PairedObservables.pair e.patch e.observablesX e.observablesZ e.ancillas = .ok paired)
    (hready : e.Ready paired.observables "init" stage.builder events)
    (hloop : build stage.builder.fork e.round = .ok loop)
    (hbody : noisyCircuit loop.circuit (roundModel e.noise) stage.immune (some stage.data) =
      .ok body) :
    Settled (if body.endsWithTick then body else body.tick) ∧
      ∃ round : List Instruction,
        (if body.endsWithTick then body else body.tick) = round.map .instruction ∧
          round.getLast?.any Instruction.isTick = true ∧
          round.flatMap Instruction.results = e.roundResults (e.layoutFor paired.observables) ∧
          NoiseContext.EveryMoment ⟨roundModel e.noise, stage.immune, stage.data⟩
            (flipArgs e.noise.flipResult) round := by
  -- The body is written into a fresh circuit, so that it measures the tiles and nothing else.
  obtain ⟨first, hlocated, hcount⟩ := hready.round
  have hfork : stage.builder.fork.IsSound := ⟨everywhere_nil _, hready.sound.tracker⟩
  have hgrows := grows_round hfork hlocated hcount (gives_of_build hloop)
  have hcompared : (unrolled (Instruction.events false) loop.circuit).filterMap
      RecordEvent.measured? = e.roundResults (e.layoutFor paired.observables) := by
    have hlayout : stage.builder.fork.layout = e.layoutFor paired.observables := hready.layout
    have hfresh : unrolled (Instruction.events false) stage.builder.fork.circuit = [] := rfl
    rw [hgrows.events, hfresh, List.nil_append, hlayout, filterMap_comparedRound]
  obtain ⟨hflat, hsettled, hnoiseless⟩ :=
    noiseless_of_adds (addsNoiseless_round (gives_of_build hloop)) rfl
  have hexposed := h.isExposed_round hpaired hflat hnoiseless
    ((unrolled_results loop.circuit).trans hcompared) (roundModel e.noise)
  obtain ⟨hclosed, hend, round, hround, hnoise⟩ :=
    everyMoment_noisyCircuit (onlyFlips_roundModel e.noise) hsettled hflat hexposed hbody
  refine ⟨hclosed, round, hround, ?_, ?_, hnoise⟩
  · rwa [hround, endsWithTick_map_instruction] at hend
  · have hresults := unrolled_results (if body.endsWithTick then body else body.tick)
    rw [(events_closedBody hgrows.sound hbody).2, hcompared, hround, unrolled_map_instruction,
      List.flatMap_singleton'] at hresults
    exact hresults

/-- The last stage appends instructions without noise: a round, and the observables. -/
theorem noiseless_finish {c : Circuit} (hready : e.Ready observables layer b events)
    (hboundary : IsAtBoundary b.circuit.reverse)
    (h : e.finish observables b layer = .ok c) :
    ∃ last : List Instruction,
      unrolled (fun i => [i]) c = unrolled (fun i => [i]) b.circuit ++ last ∧
        (∀ i ∈ last, i.IsNoiseless) ∧
        last.flatMap Instruction.results = e.roundResults (e.layoutFor observables) ++
          observedResults (e.layoutFor observables) observables := by
  have hevents := events_finish hready h
  obtain ⟨done, hbuild, h⟩ := bind_eq_ok.1 h
  cases h
  obtain ⟨_, mid, hpatch, hobservables⟩ := Build.gives_bind.1 (gives_of_build hbuild)
  have hadds := (Build.addsNoiseless_measurePatch hpatch).trans
    (addsNoiseless_measureObservables hobservables)
  obtain ⟨is, his, hcircuit⟩ := hadds.circuit
  rw [foldl_push_of_boundary hboundary] at hcircuit
  have hnoiseless : Everywhere Instruction.IsNoiseless (is.foldl Circuit.push []) :=
    everywhere_foldl_push joinable_isNoiseless his
  rw [hcircuit, unrolled_append, hready.events, List.append_assoc, List.append_cancel_left_eq]
    at hevents
  refine ⟨unrolled (fun i => [i]) (is.foldl Circuit.push []), ?_, ?_, ?_⟩
  · rw [hcircuit, unrolled_append]
  · exact fun i hi => hnoiseless i (mem_instructions_of_mem_unrolled _ hi)
  · rw [unrolled_results, hevents, List.filterMap_append, filterMap_comparedRound,
      filterMap_observableEvents]
    rfl

/-! ## The experiment -/

/-- A circuit is a part without noise, a number of times the same round, and another part without
noise.  The round has noise of every moment on the data qubits and nothing else, and its
measurements, which are those of the tiles, have the flip probability. -/
structure NoisyInRounds (e : MemoryExperiment) (paired : PairedObservables) (c : Circuit)
    (first round last : List Instruction) : Prop where
  instructions : unrolled (fun i => [i]) c =
    first ++ (List.replicate e.rounds round).flatten ++ last
  ends : first.getLast?.any Instruction.isTick = true ∧ round.getLast?.any Instruction.isTick = true
  results :
    first.flatMap Instruction.results =
        observedResults (e.layoutFor paired.observables) paired.observables ++
          e.roundResults (e.layoutFor paired.observables) ∧
      round.flatMap Instruction.results = e.roundResults (e.layoutFor paired.observables) ∧
      last.flatMap Instruction.results = e.roundResults (e.layoutFor paired.observables) ++
        observedResults (e.layoutFor paired.observables) paired.observables
  noiseless : ∀ i ∈ first ++ last,
    i.kind.isNoise = false ∧ (i.kind.isMeasurement = true → i.args = [])
  channels : ∀ i ∈ round, i.kind.isNoise = true →
    (∃ p, i.args = [p] ∧ (0 : Scalar).numLt p = true) ∧
      ∀ q ∈ i.qubits, q ∈ e.dataIndices paired.observables
  ancillas : ∀ a ∈ paired.ancillas,
    indexIn (e.layoutFor paired.observables) a ∉ e.dataIndices paired.observables
  moments : ∀ is ∈ moments (round.map .instruction), ∀ g p q, g.kind.isNoise = true →
    (named Instruction.qubits g p is).count q =
      if operates is = true ∧ q ∈ e.dataIndices paired.observables then
        NoiseContext.entriesNaming g p e.noise.after.entries else 0
  measured : ∀ i ∈ round, i.kind.isMeasurement = true → i.args = flipArgs e.noise.flipResult

/-- The noise of an experiment lies in its rounds: on the data qubits once in each moment with an
operation, and on the results of the tiles. -/
theorem phenomenological_noisyInRounds (e : MemoryExperiment) {c : Circuit}
    (h : e.phenomenological = .ok c) :
    ∃ paired first round last,
      PairedObservables.pair e.patch e.observablesX e.observablesZ e.ancillas = .ok paired ∧
        e.NoisyInRounds paired c first round last := by
  simp only [phenomenological] at h
  split at h
  · cases h
  next hrounds =>
  obtain ⟨stage, hstage, h⟩ := bind_eq_ok.1 h
  obtain ⟨loop, hloop, h⟩ := bind_eq_ok.1 h
  obtain ⟨body, hbody, h⟩ := bind_eq_ok.1 h
  obtain ⟨b, hrepeat, h⟩ := bind_eq_ok.1 h
  obtain ⟨paired, hpaired, hobservables, -, hready⟩ := ready_start hstage
  have hbegins := begins_of_start hpaired hstage
  obtain ⟨hsettled, first, hfirst, hfirstEnd, hfirstNoiseless, hfirstResults⟩ :=
    hbegins.firstPart hready
  -- The first part and the body end with step boundaries, so that no part merges with the next.
  have hboundary := isAtBoundary_of_endsWithTick hbegins.ends
  obtain ⟨hclosed, round, hround, hend, hresults, hnoise⟩ :=
    hbegins.noisyBody hpaired hready hloop hbody
  have hloopReady := ready_loop hready hloop hbody hrepeat
  obtain ⟨t, -, rfl⟩ := Build.appendRepeated_spec (gives_of_build hrepeat)
  have hloopEnd : (if body.endsWithTick then body else body.tick).endsWithTick = true := by
    rw [hround, endsWithTick_map_instruction, hend]
  rw [hobservables] at h
  obtain ⟨last, hlast, hlastNoiseless, hlastResults⟩ := noiseless_finish hloopReady
    (isAtBoundary_pushRepeat hrounds hsettled hboundary hclosed hloopEnd) h
  refine ⟨paired, first, round, last, hpaired, ?_⟩
  constructor
  · rw [hlast, unrolled_pushRepeat hrounds hsettled hboundary hclosed, hfirst, hround,
      unrolled_map_instruction, unrolled_map_instruction, List.flatMap_singleton',
      List.flatMap_singleton']
  · exact ⟨hfirstEnd, hend⟩
  · exact ⟨hfirstResults, hresults, hlastResults⟩
  · intro i hi
    have hone : i.IsNoiseless :=
      (List.mem_append.1 hi).elim (hfirstNoiseless i) (hlastNoiseless i)
    exact ⟨hone.noise, hone.args⟩
  · intro i hi hkind
    obtain ⟨hstrength, hqubits⟩ := hnoise.channels i hi hkind
    refine ⟨hstrength, fun q hq => ?_⟩
    have hnoisy := hqubits q hq
    rwa [hbegins.isNoisy_eq hpaired, decide_eq_true_eq] at hnoisy
  · intro a ha hdata
    exact hbegins.notMem_of_mem_dataIndices hpaired hdata (List.mem_map_of_mem ha)
  · intro is his g p q hg
    rw [hnoise.moments is his g p q hg, hbegins.isNoisy_eq hpaired]
    simp only [Bool.and_eq_true, decide_eq_true_eq]
    rfl
  · exact hnoise.measured

/-- A check through its measurement qubit, whose observables share an ancilla. -/
def pairedMemory : MemoryExperiment :=
  { singleMemory with
    noise := chainMemory.noise
    observablesX := [.ofTerms [(⟨0, 0⟩, .x)]]
    rounds := 2 }

theorem noisyInRounds_pairedMemory :
    ∃ (c : Circuit) (paired : PairedObservables) (first round last : List Instruction),
      pairedMemory.phenomenological = .ok c ∧
        pairedMemory.NoisyInRounds paired c first round last := by
  have hok : pairedMemory.phenomenological.isOk = true := by decide +kernel
  cases hc : pairedMemory.phenomenological with
  | error _ => simp [hc, Except.isOk, Except.toBool] at hok
  | ok c =>
    obtain ⟨paired, first, round, last, -, hnoisy⟩ :=
      phenomenological_noisyInRounds pairedMemory hc
    exact ⟨c, paired, first, round, last, rfl, hnoisy⟩

end MemoryExperiment

end StabCircuit
