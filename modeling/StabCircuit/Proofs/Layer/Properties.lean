import StabCircuit.Proofs.Circuit.Unrolled
import StabCircuit.Proofs.Layer.Cases
import StabCircuit.Proofs.Support.Results

/-!
# Properties of all layers

A property of layers is carried into the bodies of loops that run at all.  One
that every vacuous layer has, and that joined and fused layers have exactly when
their parts do, holds after local optimization exactly when it held before.
-/

namespace StabCircuit

namespace Layer

variable {p : Layer → Prop}

mutual

/-- A layer has a property; a loop has it when its layers do, or it never runs. -/
def Holds (p : Layer → Prop) : Layer → Prop
  | loop count body => count ≠ 0 → AllHold p body
  | l => p l

/-- All layers have a property, at every depth. -/
def AllHold (p : Layer → Prop) : List Layer → Prop
  | [] => True
  | l :: rest => Holds p l ∧ AllHold p rest

end

theorem holds_of_isLoop_eq_false {l : Layer} (h : l.isLoop = false) : Holds p l ↔ p l := by
  cases l with
  | loop count body => simp [isLoop] at h
  | _ => simp only [Holds]

theorem allHold_iff {ls : List Layer} : AllHold p ls ↔ ∀ l ∈ ls, Holds p l := by
  induction ls with
  | nil => simp [AllHold]
  | cons l rest ih => simp only [AllHold, ih, List.forall_mem_cons]

theorem allHold_append {ls ms : List Layer} :
    AllHold p (ls ++ ms) ↔ AllHold p ls ∧ AllHold p ms := by
  simp only [allHold_iff, List.forall_mem_append]

theorem allHold_reverse {ls : List Layer} : AllHold p ls.reverse ↔ AllHold p ls := by
  simp only [allHold_iff, List.mem_reverse]

theorem allHold_of_isLoop_eq_false {ls : List Layer} (h : ∀ l ∈ ls, l.isLoop = false) :
    AllHold p ls ↔ ∀ l ∈ ls, p l := by
  rw [allHold_iff]
  exact forall₂_congr fun l hl => holds_of_isLoop_eq_false (h l hl)

theorem Holds.mono {q : Layer → Prop} {l : Layer} (h : Holds p l) (hpq : ∀ l, p l → q l) :
    Holds q l := by
  induction l using loopInduction with
  | plain l hl =>
    rw [holds_of_isLoop_eq_false hl] at h ⊢
    exact hpq l h
  | loop count body ih =>
    simp only [Holds, allHold_iff] at h ⊢
    exact fun hcount l hl => ih l hl (h hcount l hl)

theorem AllHold.mono {q : Layer → Prop} {ls : List Layer} (h : AllHold p ls)
    (hpq : ∀ l, p l → q l) : AllHold q ls :=
  allHold_iff.2 fun l hl => (allHold_iff.1 h l hl).mono hpq

theorem allHold_and {q : Layer → Prop} {ls : List Layer} :
    AllHold (fun l => p l ∧ q l) ls ↔ AllHold p ls ∧ AllHold q ls := by
  have hlayer : ∀ l : Layer, Holds (fun l => p l ∧ q l) l ↔ Holds p l ∧ Holds q l := by
    intro l
    induction l using loopInduction with
    | plain l hl => simp only [holds_of_isLoop_eq_false hl]
    | loop count body ih =>
      simp only [Holds, allHold_iff, forall₂_congr ih, imp_and, forall_and]
  simp only [allHold_iff, hlayer, forall_and]

/-- A property that two layers have as one exactly when both have it. -/
structure Absorptive (p : Layer → Prop) : Prop where
  absorb : ∀ l next joined : Layer, l.absorb? next = some joined → (p joined ↔ p l ∧ p next)

/-- A property that local optimization neither brings about nor destroys. -/
structure Stable (p : Layer → Prop) : Prop extends Absorptive p where
  vacuous : ∀ l : Layer, l.isLoop = false → l.isVacuous = true → p l
  rotation : ∀ rotations, p (rotation rotations)
  shift : ∀ offset, p (shift offset)
  interactSwap : ∀ interactions swaps, samePairs interactions swaps = true →
    (p (interactSwap interactions) ↔ p (interact interactions) ∧ p (swap swaps))
  swapInteract : ∀ interactions swaps, samePairs interactions swaps = true →
    (p (Layer.interactSwap (interactions.map Interaction.exchangeQubits)) ↔
      p (swap swaps) ∧ p (interact interactions))

theorem Absorptive.and {q : Layer → Prop} (hp : Absorptive p) (hq : Absorptive q) :
    Absorptive fun l => p l ∧ q l where
  absorb l next joined h := by
    rw [hp.absorb l next joined h, hq.absorb l next joined h]
    exact and_and_and_comm

theorem Stable.and {q : Layer → Prop} (hp : Stable p) (hq : Stable q) :
    Stable fun l => p l ∧ q l where
  toAbsorptive := hp.toAbsorptive.and hq.toAbsorptive
  vacuous l hl h := ⟨hp.vacuous l hl h, hq.vacuous l hl h⟩
  rotation rotations := ⟨hp.rotation rotations, hq.rotation rotations⟩
  shift offset := ⟨hp.shift offset, hq.shift offset⟩
  interactSwap interactions swaps h := by
    rw [hp.interactSwap interactions swaps h, hq.interactSwap interactions swaps h]
    exact and_and_and_comm
  swapInteract interactions swaps h := by
    rw [hp.swapInteract interactions swaps h, hq.swapInteract interactions swaps h]
    exact and_and_and_comm

theorem allVacuous_iff {ls : List Layer} :
    allVacuous ls = true ↔ ∀ l ∈ ls, l.isVacuous = true := by
  induction ls with
  | nil => simp [allVacuous]
  | cons l rest ih => simp only [allVacuous, Bool.and_eq_true, ih, List.forall_mem_cons]

theorem Stable.holds_of_isVacuous (hp : Stable p) {l : Layer} (h : l.isVacuous = true) :
    Holds p l := by
  induction l using loopInduction with
  | plain l hl => exact (holds_of_isLoop_eq_false hl).2 (hp.vacuous l hl h)
  | loop count body ih =>
    intro hcount
    simp only [isVacuous, Bool.or_eq_true, beq_iff_eq, hcount, false_or] at h
    exact allHold_iff.2 fun l hl => ih l hl (allVacuous_iff.1 h l hl)

theorem Absorptive.holds_absorb (hp : Absorptive p) {l next joined : Layer}
    (h : l.absorb? next = some joined) : Holds p joined ↔ Holds p l ∧ Holds p next := by
  obtain ⟨hl, hnext, hjoined⟩ := (absorbed_of_absorb? h).1.isLoop
  rw [holds_of_isLoop_eq_false hl, holds_of_isLoop_eq_false hnext,
    holds_of_isLoop_eq_false hjoined]
  exact hp.absorb l next joined h

theorem Stable.allHold_fuse (hp : Stable p) (l next : Layer) :
    AllHold p (fuse l next) ↔ Holds p l ∧ Holds p next := by
  have hempty : Holds p .empty := hp.holds_of_isVacuous rfl
  have hfused := fused_fuse l next
  generalize fuse l next = result at hfused
  cases hfused with
  | emptyRight => simp [AllHold, hempty]
  | emptyLeft => simp [AllHold, hempty]
  | rotations a b => simp [AllHold, Holds, hp.rotation]
  | rotationReset a resets => simp [AllHold, Holds, hp.rotation]
  | interactSwap h => simpa [AllHold, Holds] using hp.interactSwap _ _ h
  | swapInteract h => simpa [AllHold, Holds] using hp.swapInteract _ _ h
  | shifts a b => simp [AllHold, Holds, hp.shift]
  | joined h => simpa [AllHold] using hp.holds_absorb h
  | kept => simp [AllHold]

theorem Stable.allHold_filter (hp : Stable p) (ls : List Layer) :
    AllHold p (ls.filter fun l => !l.isVacuous) ↔ AllHold p ls := by
  simp only [allHold_iff, List.mem_filter, Bool.not_eq_true', and_imp]
  refine forall₂_congr fun l _ => ?_
  constructor
  · intro h
    by_cases hvacuous : l.isVacuous = true
    · exact hp.holds_of_isVacuous hvacuous
    · exact h (by simpa using hvacuous)
  · exact fun h _ => h

theorem Stable.allHold_dropWhile (hp : Stable p) (ls : List Layer) :
    AllHold p (ls.dropWhile isVacuous) ↔ AllHold p ls := by
  induction ls with
  | nil => rfl
  | cons l rest ih =>
    rw [List.dropWhile_cons]
    split
    · next hvacuous =>
      rw [ih, AllHold]
      exact (and_iff_right (hp.holds_of_isVacuous hvacuous)).symm
    · rfl

/-! ## Local optimization -/

theorem Stable.allHold_pushFused (hp : Stable p) (stack : List Layer) (l : Layer) :
    AllHold p (LayerCircuit.pushFused stack l) ↔ AllHold p stack ∧ Holds p l := by
  unfold LayerCircuit.pushFused
  rw [hp.allHold_dropWhile]
  cases stack with
  | nil => simp [AllHold]
  | cons top rest =>
    simp only [allHold_append, allHold_reverse, fusedWith, hp.allHold_filter, hp.allHold_fuse,
      AllHold]
    exact and_right_comm

theorem optimizeLayer_of_isLoop_eq_false {l : Layer} (h : l.isLoop = false) :
    LayerCircuit.optimizeLayer l = l := by
  cases l with
  | loop count body => simp [isLoop] at h
  | _ => rfl

theorem Stable.allHold_optimizeFrom_of (hp : Stable p) {ls : List Layer}
    (hls : ∀ l ∈ ls, (Holds p (LayerCircuit.optimizeLayer l) ↔ Holds p l))
    (stack : List Layer) :
    AllHold p (LayerCircuit.optimizeFrom stack ls) ↔ AllHold p stack ∧ AllHold p ls := by
  induction ls generalizing stack with
  | nil => simp [LayerCircuit.optimizeFrom, AllHold]
  | cons l rest ih =>
    rw [List.forall_mem_cons] at hls
    rw [LayerCircuit.optimizeFrom, ih hls.2, hp.allHold_pushFused, hls.1, AllHold, and_assoc]

theorem Stable.holds_optimizeLayer (hp : Stable p) (l : Layer) :
    Holds p (LayerCircuit.optimizeLayer l) ↔ Holds p l := by
  induction l using loopInduction with
  | plain l hl => rw [optimizeLayer_of_isLoop_eq_false hl]
  | loop count body ih =>
    rw [LayerCircuit.optimizeLayer, Holds, Holds, allHold_reverse, hp.allHold_optimizeFrom_of ih]
    simp [AllHold]

/-- A stable property holds of all optimized layers exactly when it holds of the layers. -/
theorem Stable.allHold_optimized (hp : Stable p) (ls : LayerCircuit) :
    AllHold p ls.optimized ↔ AllHold p ls := by
  rw [LayerCircuit.optimized, allHold_reverse,
    hp.allHold_optimizeFrom_of fun l _ => hp.holds_optimizeLayer l]
  simp [AllHold]

/-! ## Splitting -/

theorem Absorptive.allHold_addReversed (hp : Absorptive p) (layers : List Layer) (l : Layer) :
    AllHold p (LayerCircuit.addReversed layers l) ↔ AllHold p layers ∧ Holds p l := by
  cases layers with
  | nil => simp [LayerCircuit.addReversed, AllHold]
  | cons last rest =>
    simp only [LayerCircuit.addReversed]
    split
    · next joined h =>
      rw [AllHold, AllHold, hp.holds_absorb h]
      exact and_right_comm
    · rw [AllHold]
      exact and_comm

theorem Absorptive.allHold_addManyReversed (hp : Absorptive p) (layers more : List Layer) :
    AllHold p (LayerCircuit.addManyReversed layers more) ↔ AllHold p layers ∧ AllHold p more := by
  induction more generalizing layers with
  | nil => simp [LayerCircuit.addManyReversed, AllHold]
  | cons l more ih =>
    have hstep : LayerCircuit.addManyReversed layers (l :: more) =
        LayerCircuit.addManyReversed (LayerCircuit.addReversed layers l) more := rfl
    rw [hstep, ih, hp.allHold_addReversed, AllHold, and_assoc]

/-- Splitting gives layers with a property exactly when the layers before have it and every
instruction that runs yields layers that do. -/
theorem Absorptive.allHold_splitAll (hp : Absorptive p) {q r : Instruction → Prop}
    (hq : ∀ i more, q i → LayerCircuit.Yields i more → ((∀ l ∈ more, p l) ↔ r i)) :
    (ops : List Operation) → Circuit.Everywhere q ops → (layers result : List Layer) →
      LayerCircuit.splitAll layers ops = .ok result →
      (AllHold p result ↔ AllHold p layers ∧ ∀ i ∈ Circuit.unrolled (fun i => [i]) ops, r i)
  | [], _, layers, result, h => by
    cases h
    simp [Circuit.unrolled]
  | .instruction i :: rest, hops, layers, result, h => by
    rw [Circuit.everywhere_cons, Circuit.within_instruction] at hops
    simp only [LayerCircuit.splitAll, LayerCircuit.splitOperation] at h
    split at h
    · next next hnext =>
      obtain ⟨more, hmore, rfl⟩ := LayerCircuit.yields_of_addInstruction hnext
      rw [hp.allHold_splitAll hq rest hops.2 _ result h, hp.allHold_addManyReversed,
        allHold_of_isLoop_eq_false hmore.isLoop, hq i more hops.1 hmore]
      simp [Circuit.unrolled, Circuit.unrolledOperation, and_assoc]
    · cases h
  | .block count body :: rest, hops, layers, result, h => by
    rw [Circuit.everywhere_cons, Circuit.within_block] at hops
    simp only [LayerCircuit.splitAll, LayerCircuit.splitOperation] at h
    cases hinner : LayerCircuit.splitAll [] body with
    | error e => simp [hinner] at h
    | ok inner =>
      simp only [hinner] at h
      have hbody : AllHold p inner.reverse ↔ ∀ i ∈ Circuit.unrolled (fun i => [i]) body, r i := by
        rw [allHold_reverse, hp.allHold_splitAll hq body hops.1 [] inner hinner]
        exact and_iff_right trivial
      rw [hp.allHold_splitAll hq rest hops.2 _ result h, AllHold, Holds, hbody]
      simp only [Circuit.unrolled, List.forall_mem_append, Circuit.mem_unrolledOperation_block,
        and_imp]
      grind

/-- The layers of a circuit have an absorptive property exactly when every instruction that runs
yields layers that do. -/
theorem Absorptive.allHold_ofCircuit_iff (hp : Absorptive p) {q r : Instruction → Prop}
    (hq : ∀ i more, q i → LayerCircuit.Yields i more → ((∀ l ∈ more, p l) ↔ r i)) {c : Circuit}
    {ls : LayerCircuit} (hc : Circuit.Everywhere q c) (h : LayerCircuit.ofCircuit c = .ok ls) :
    AllHold p ls ↔ ∀ i ∈ Circuit.unrolled (fun i => [i]) c, r i := by
  unfold LayerCircuit.ofCircuit at h
  cases hsplit : LayerCircuit.splitAll [] c with
  | error e => simp [hsplit, Except.map] at h
  | ok result =>
    simp only [hsplit, Except.map, Except.ok.injEq] at h
    subst h
    rw [allHold_reverse, hp.allHold_splitAll hq c hc [] result hsplit]
    exact and_iff_right trivial

/-- The layers of a circuit have an absorptive property when every instruction yields layers that
do. -/
theorem Absorptive.allHold_ofCircuit (hp : Absorptive p) {q : Instruction → Prop}
    (hq : ∀ i more, q i → LayerCircuit.Yields i more → ∀ l ∈ more, p l) {c : Circuit}
    {ls : LayerCircuit} (hc : Circuit.Everywhere q c) (h : LayerCircuit.ofCircuit c = .ok ls) :
    AllHold p ls := by
  rw [hp.allHold_ofCircuit_iff (r := fun _ => True)
    (fun i more hi hmore => iff_of_true (hq i more hi hmore) trivial) hc h]
  exact fun _ _ => trivial

/-! ## Change to the Z basis -/

theorem toZ_eq_flatMap (ls : List Layer) :
    LayerCircuit.toZ ls = ls.flatMap LayerCircuit.layerToZ := by
  induction ls with
  | nil => rfl
  | cons l rest ih => rw [LayerCircuit.toZ, ih, List.flatMap_cons]

theorem isLoop_layerToZ {l : Layer} (h : l.isLoop = false) :
    ∀ j ∈ LayerCircuit.layerToZ l, j.isLoop = false := by
  cases l with
  | loop count body => simp [isLoop] at h
  | interact _ | interactSwap _ | reset _ | measure _ | product _ =>
    rw [LayerCircuit.layerToZ]
    split <;> simp [isLoop, rotationsToZ]
  | _ => simp [LayerCircuit.layerToZ, isLoop]

/-- A property that the change of a layer to the Z basis neither brings about nor destroys. -/
def StableToZ (p : Layer → Prop) : Prop :=
  ∀ l : Layer, l.isLoop = false → ((∀ j ∈ LayerCircuit.layerToZ l, p j) ↔ p l)

theorem allHold_flatMap {ls : List Layer} {f : Layer → List Layer}
    (h : ∀ l ∈ ls, (AllHold p (f l) ↔ Holds p l)) : AllHold p (ls.flatMap f) ↔ AllHold p ls := by
  induction ls with
  | nil => rfl
  | cons l rest ih =>
    rw [List.forall_mem_cons] at h
    rw [List.flatMap_cons, allHold_append, AllHold, h.1, ih h.2]

theorem StableToZ.allHold_layerToZ (hp : StableToZ p) (l : Layer) :
    AllHold p (LayerCircuit.layerToZ l) ↔ Holds p l := by
  induction l using loopInduction with
  | plain l hl =>
    rw [allHold_of_isLoop_eq_false (isLoop_layerToZ hl), holds_of_isLoop_eq_false hl]
    exact hp l hl
  | loop count body ih =>
    simp only [LayerCircuit.layerToZ, AllHold, and_true, Holds, toZ_eq_flatMap,
      allHold_flatMap ih]

/-- A property that is stable under the change of layers holds of all changed layers exactly when
it holds of the layers. -/
theorem StableToZ.allHold_toZ (hp : StableToZ p) (ls : LayerCircuit) :
    AllHold p (LayerCircuit.toZ ls) ↔ AllHold p ls := by
  rw [toZ_eq_flatMap, allHold_flatMap fun l _ => hp.allHold_layerToZ l]

/-! ## Writing -/

theorem writeLayer_of_isLoop_eq_false {l : Layer} (h : l.isLoop = false) (done : List Operation) :
    LayerCircuit.writeLayer done l = l.instructions.foldl Circuit.pushReversed done := by
  cases l with
  | loop count body => simp [isLoop] at h
  | _ => rfl

variable {q : Instruction → Prop}

theorem everywhere_writeAll_of (hq : Circuit.Joinable q) (htick : q .tick) {ls : List Layer}
    (hls : ∀ l ∈ ls, ∀ done, Circuit.Everywhere q done →
      Circuit.Everywhere q (LayerCircuit.writeLayer done l))
    {done : List Operation} (hdone : Circuit.Everywhere q done) (owed : Bool) :
    Circuit.Everywhere q (LayerCircuit.writeAll done owed ls) := by
  induction ls generalizing done owed with
  | nil => exact hdone
  | cons l rest ih =>
    rw [List.forall_mem_cons] at hls
    simp only [LayerCircuit.writeAll]
    split
    · exact ih hls.2 hdone owed
    · refine ih hls.2 (hls.1 _ ?_) _
      split
      · exact Circuit.everywhere_pushReversed hq hdone htick
      · exact hdone

theorem everywhere_writeLayer (hq : Circuit.Joinable q) (htick : q .tick) {l : Layer}
    (hl : Holds (fun l => ∀ i ∈ l.instructions, q i) l) {done : List Operation}
    (hdone : Circuit.Everywhere q done) :
    Circuit.Everywhere q (LayerCircuit.writeLayer done l) := by
  induction l using loopInduction generalizing done with
  | plain l hplain =>
    rw [writeLayer_of_isLoop_eq_false hplain]
    exact Circuit.everywhere_foldl_pushReversed hq hdone ((holds_of_isLoop_eq_false hplain).1 hl)
  | loop count body ih =>
    rw [LayerCircuit.writeLayer]
    by_cases hcount : count = 0
    · rw [hcount, Circuit.addReversed]
      exact hdone
    · have hbody := allHold_iff.1 (hl hcount)
      refine Circuit.everywhere_addReversed hq hdone _ (Circuit.within_block.2 ?_)
      refine Circuit.everywhere_push hq (Circuit.everywhere_reverse.2 ?_) htick
      exact everywhere_writeAll_of hq htick (fun l hl done hdone => ih l hl (hbody l hl) hdone)
        (Circuit.everywhere_nil q) false

/-- Layers are written with instructions that have a property when each layer is. -/
theorem everywhere_toCircuit (hq : Circuit.Joinable q) (htick : q .tick) {ls : LayerCircuit}
    (hls : AllHold (fun l => ∀ i ∈ l.instructions, q i) ls) :
    Circuit.Everywhere q ls.toCircuit := by
  rw [LayerCircuit.toCircuit, Circuit.everywhere_reverse]
  exact everywhere_writeAll_of hq htick
    (fun l hl done hdone => everywhere_writeLayer hq htick (allHold_iff.1 hls l hl) hdone)
    (Circuit.everywhere_nil q) false

end Layer

/-- How the change to the Z basis succeeds. -/
theorem LayerCircuit.zBasisCircuit_eq_ok {c out : Circuit}
    (h : LayerCircuit.zBasisCircuit c = .ok out) :
    ∃ layers, LayerCircuit.ofCircuit c = .ok layers ∧
      LayerCircuit.checkDisjoint (LayerCircuit.optimized (LayerCircuit.toZ layers)) = .ok () ∧
      out = (LayerCircuit.optimized (LayerCircuit.toZ layers)).toCircuit := by
  obtain ⟨layers, hlayers, h⟩ := bind_eq_ok.1 h
  obtain ⟨_, hcheck, h⟩ := bind_eq_ok.1 h
  exact ⟨layers, hlayers, hcheck, (pure_eq_ok.1 h).symm⟩

end StabCircuit
