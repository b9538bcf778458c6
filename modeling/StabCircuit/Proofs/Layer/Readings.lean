import StabCircuit.Proofs.Layer.Properties

/-!
# Readings of circuits and layers

A reading shows every instruction and every plain layer as a list, and loops and
repeat blocks as often as they run.  When a reading agrees on an instruction and
the layers that it yields, on layers and what they fuse to, and on a layer and the
instructions that write it, then it agrees on a circuit and all that splitting,
local optimization, the change to the Z basis and writing make of it.
-/

namespace StabCircuit

open Layer LayerCircuit

/-- What instructions and plain layers show, and when two showings count as the same. -/
structure Reading (β : Type) where
  /-- What an instruction shows. -/
  instruction : Instruction → List β
  /-- What a layer that is no loop shows. -/
  plain : Layer → List β
  /-- Whether two showings count as the same. -/
  Same : List β → List β → Prop

namespace Reading

variable {β : Type} (R : Reading β)

mutual

/-- What a layer shows, a loop as often as it runs. -/
def layer : Layer → List β
  | .loop count body => (List.replicate count (layers body)).flatten
  | l => R.plain l

/-- What layers show one after another. -/
def layers : List Layer → List β
  | [] => []
  | l :: rest => layer l ++ layers rest

end

theorem layer_of_isLoop_eq_false {l : Layer} (h : l.isLoop = false) : R.layer l = R.plain l := by
  cases l with
  | loop count body => simp [isLoop] at h
  | _ => rfl

theorem layers_append (ls ms : List Layer) : R.layers (ls ++ ms) = R.layers ls ++ R.layers ms := by
  induction ls with
  | nil => rfl
  | cons l rest ih => simp only [List.cons_append, layers, ih, List.append_assoc]

theorem layers_singleton (l : Layer) : R.layers [l] = R.layer l := by
  simp [layers]

theorem layers_reverse_cons (l : Layer) (ls : List Layer) :
    R.layers (l :: ls).reverse = R.layers ls.reverse ++ R.layer l := by
  rw [List.reverse_cons, layers_append, layers_singleton]

theorem layers_of_isLoop_eq_false {ls : List Layer} (h : ∀ l ∈ ls, l.isLoop = false) :
    R.layers ls = ls.flatMap R.plain := by
  induction ls with
  | nil => rfl
  | cons l rest ih =>
    rw [List.forall_mem_cons] at h
    rw [layers, ih h.2, layer_of_isLoop_eq_false R h.1, List.flatMap_cons]

/-- Sameness is an equivalence that may be applied anywhere in a list. -/
structure Congruent : Prop where
  refl : ∀ xs, R.Same xs xs
  symm : ∀ {xs ys}, R.Same xs ys → R.Same ys xs
  trans : ∀ {xs ys zs}, R.Same xs ys → R.Same ys zs → R.Same xs zs
  append : ∀ {xs ys us vs}, R.Same xs ys → R.Same us vs → R.Same (xs ++ us) (ys ++ vs)

/-- The reading agrees on what splitting and writing make of layers with a property and
instructions with a property. -/
structure Faithful (good : Layer → Prop) (admits : Instruction → Prop) : Prop
    extends R.Congruent where
  absorptive : Absorptive good
  additive : Circuit.Additive R.instruction
  instruction_tick : R.instruction .tick = []
  checked : ∀ l, good l → ∀ i ∈ l.instructions, i.IsChecked
  vacuous : ∀ l : Layer, l.isLoop = false → l.isVacuous = true → R.Same (R.plain l) []
  split : ∀ i more, admits i → Yields i more → (∀ l ∈ more, good l) →
    R.Same (more.flatMap R.plain) (R.instruction i)
  absorb : ∀ l next joined : Layer, l.absorb? next = some joined → good l → good next →
    R.Same (R.plain joined) (R.plain l ++ R.plain next)
  write : ∀ l : Layer, l.isLoop = false → good l →
    R.Same (l.instructions.flatMap R.instruction) (R.plain l)

/-- The reading agrees on what fusing makes of them, too. -/
structure Lawful (good : Layer → Prop) (admits : Instruction → Prop) : Prop
    extends R.Faithful good admits where
  stable : Stable good
  absorptive := stable.toAbsorptive
  rotations : ∀ a b, R.Same (R.plain (.rotation (composeRotations a b)))
    (R.plain (.rotation a) ++ R.plain (.rotation b))
  rotationReset : ∀ a resets,
    R.Same (R.plain (.rotation (resets.foldl (fun m entry => m.erase entry.1) a)) ++
      R.plain (.reset resets)) (R.plain (.rotation a) ++ R.plain (.reset resets))
  interactSwap : ∀ interactions swaps, samePairs interactions swaps = true →
    good (.interact interactions) → good (.swap swaps) →
    R.Same (R.plain (.interactSwap interactions))
      (R.plain (.interact interactions) ++ R.plain (.swap swaps))
  swapInteract : ∀ interactions swaps, samePairs interactions swaps = true →
    good (.interact interactions) → good (.swap swaps) →
    R.Same (R.plain (.interactSwap (interactions.map Interaction.exchangeQubits)))
      (R.plain (.swap swaps) ++ R.plain (.interact interactions))
  shifts : ∀ a b, R.Same (R.plain (.shift (addShifts a b)))
    (R.plain (.shift a) ++ R.plain (.shift b))

namespace Congruent

variable {R}

theorem append_left (hR : R.Congruent) (xs : List β) {us vs : List β} (h : R.Same us vs) :
    R.Same (xs ++ us) (xs ++ vs) :=
  hR.append (hR.refl xs) h

theorem append_right (hR : R.Congruent) {xs ys : List β} (h : R.Same xs ys) (us : List β) :
    R.Same (xs ++ us) (ys ++ us) :=
  hR.append h (hR.refl us)

theorem of_eq (hR : R.Congruent) {xs ys : List β} (h : xs = ys) : R.Same xs ys :=
  h ▸ hR.refl xs

theorem flatten_replicate (hR : R.Congruent) {xs ys : List β} (h : R.Same xs ys) (count : Nat) :
    R.Same (List.replicate count xs).flatten (List.replicate count ys).flatten := by
  induction count with
  | zero => exact hR.refl _
  | succ count ih =>
    rw [List.replicate_succ, List.replicate_succ, List.flatten_cons, List.flatten_cons]
    exact hR.append h ih

theorem layers_same_of_forall (hR : R.Congruent) {ls : List Layer} {f : Layer → List Layer}
    (h : ∀ l ∈ ls, R.Same (R.layers (f l)) (R.layer l)) :
    R.Same (R.layers (ls.flatMap f)) (R.layers ls) := by
  induction ls with
  | nil => exact hR.refl _
  | cons l rest ih =>
    rw [List.forall_mem_cons] at h
    rw [List.flatMap_cons, layers_append, layers]
    exact hR.append h.1 (ih h.2)

end Congruent

namespace Faithful

variable {R} {good : Layer → Prop} {admits : Instruction → Prop}

theorem layer_of_isVacuous (hR : R.Faithful good admits) {l : Layer} (h : l.isVacuous = true) :
    R.Same (R.layer l) [] := by
  induction l using loopInduction with
  | plain l hl =>
    rw [layer_of_isLoop_eq_false R hl]
    exact hR.vacuous l hl h
  | loop count body ih =>
    simp only [isVacuous, Bool.or_eq_true, beq_iff_eq] at h
    rw [layer]
    rcases h with rfl | h
    · exact hR.refl _
    · have hbody : R.Same (R.layers body) [] := by
        have hall := allVacuous_iff.1 h
        clear h
        induction body with
        | nil => exact hR.refl _
        | cons l rest ihrest =>
          rw [List.forall_mem_cons] at ih hall
          exact hR.append (ih.1 hall.1) (ihrest ih.2 hall.2)
      have hflat := hR.flatten_replicate hbody count
      simpa using hflat

theorem layer_absorb (hR : R.Faithful good admits) {l next joined : Layer}
    (h : l.absorb? next = some joined) (hl : Holds good l) (hnext : Holds good next) :
    R.Same (R.layer joined) (R.layer l ++ R.layer next) := by
  obtain ⟨hplain, hplain', hplain''⟩ := (absorbed_of_absorb? h).1.isLoop
  rw [holds_of_isLoop_eq_false hplain] at hl
  rw [holds_of_isLoop_eq_false hplain'] at hnext
  rw [layer_of_isLoop_eq_false R hplain, layer_of_isLoop_eq_false R hplain',
    layer_of_isLoop_eq_false R hplain'']
  exact hR.absorb l next joined h hl hnext

/-! ## Splitting -/

theorem layers_addReversed (hR : R.Faithful good admits) {layers : List Layer} {l : Layer}
    (hlayers : AllHold good layers) (hl : Holds good l) :
    R.Same (R.layers (addReversed layers l).reverse) (R.layers layers.reverse ++ R.layer l) := by
  cases layers with
  | nil => exact hR.of_eq (R.layers_singleton l)
  | cons last rest =>
    simp only [addReversed]
    split
    · next joined h =>
      rw [layers_reverse_cons, layers_reverse_cons, List.append_assoc]
      exact hR.append_left _ (hR.layer_absorb h hlayers.1 hl)
    · rw [layers_reverse_cons]
      exact hR.refl _

theorem layers_addManyReversed (hR : R.Faithful good admits) {layers more : List Layer}
    (hlayers : AllHold good layers) (hmore : AllHold good more) :
    R.Same (R.layers (addManyReversed layers more).reverse)
      (R.layers layers.reverse ++ R.layers more) := by
  induction more generalizing layers with
  | nil => exact hR.of_eq (List.append_nil _).symm
  | cons l more ih =>
    have hadd := hR.layers_addReversed hlayers hmore.1
    have hrest := ih ((hR.absorptive.allHold_addReversed layers l).2 ⟨hlayers, hmore.1⟩) hmore.2
    rw [Reading.layers, ← List.append_assoc]
    exact hR.trans hrest (hR.append_right hadd _)

/-- Good layers that come from operations show what the operations show. -/
theorem layers_splitAll (hR : R.Faithful good admits) :
    (ops : List Operation) → Circuit.Everywhere admits ops → (layers result : List Layer) →
      splitAll layers ops = .ok result → AllHold good result →
      AllHold good layers ∧ R.Same (R.layers result.reverse)
        (R.layers layers.reverse ++ Circuit.unrolled R.instruction ops)
  | [], _, layers, result, h, hgood => by
    cases h
    exact ⟨hgood, hR.of_eq (List.append_nil _).symm⟩
  | .instruction i :: rest, hops, layers, result, h, hgood => by
    rw [Circuit.everywhere_cons, Circuit.within_instruction] at hops
    simp only [splitAll, splitOperation] at h
    split at h
    · next next hnext =>
      obtain ⟨more, hmore, rfl⟩ := yields_of_addInstruction hnext
      obtain ⟨hadded, hrest⟩ := hR.layers_splitAll rest hops.2 _ result h hgood
      obtain ⟨hlayers, hall⟩ := (hR.absorptive.allHold_addManyReversed layers more).1 hadded
      have hyield : R.Same (R.layers more) (R.instruction i) := by
        rw [layers_of_isLoop_eq_false R hmore.isLoop]
        exact hR.split i more hops.1 hmore ((allHold_of_isLoop_eq_false hmore.isLoop).1 hall)
      have hadd := hR.trans (hR.layers_addManyReversed hlayers hall) (hR.append_left _ hyield)
      refine ⟨hlayers, ?_⟩
      rw [Circuit.unrolled, Circuit.unrolledOperation, ← List.append_assoc]
      exact hR.trans hrest (hR.append_right hadd _)
    · cases h
  | .block count body :: rest, hops, layers, result, h, hgood => by
    rw [Circuit.everywhere_cons, Circuit.within_block] at hops
    simp only [splitAll, splitOperation] at h
    cases hinner : splitAll [] body with
    | error e => simp [hinner] at h
    | ok inner =>
      simp only [hinner] at h
      obtain ⟨⟨hloop, hlayers⟩, hrest⟩ := hR.layers_splitAll rest hops.2 _ result h hgood
      have hblock : R.Same (R.layer (.loop count inner.reverse))
          (Circuit.unrolledOperation R.instruction (.block count body)) := by
        rw [layer, Circuit.unrolledOperation]
        by_cases hcount : count = 0
        · rw [hcount]
          exact hR.refl _
        · have hbody : AllHold good inner := allHold_reverse.1 (hloop hcount)
          exact hR.flatten_replicate
            (hR.layers_splitAll body hops.1 [] inner hinner hbody).2 count
      refine ⟨hlayers, ?_⟩
      rw [layers_reverse_cons] at hrest
      rw [Circuit.unrolled, ← List.append_assoc]
      exact hR.trans hrest (hR.append_right (hR.append_left _ hblock) _)

/-- Good layers of a circuit show what the circuit shows. -/
theorem layers_ofCircuit (hR : R.Faithful good admits) {c : Circuit} {ls : LayerCircuit}
    (hc : Circuit.Everywhere admits c) (h : ofCircuit c = .ok ls) (hgood : AllHold good ls) :
    R.Same (R.layers ls) (Circuit.unrolled R.instruction c) := by
  unfold ofCircuit at h
  cases hsplit : splitAll [] c with
  | error e => simp [hsplit, Except.map] at h
  | ok result =>
    simp only [hsplit, Except.map, Except.ok.injEq] at h
    subst h
    exact (hR.layers_splitAll c hc [] result hsplit (allHold_reverse.1 hgood)).2

/-! ## Writing -/

theorem unrolled_writeAll_of (hR : R.Faithful good admits) {ls : List Layer}
    (hgood : AllHold good ls)
    (hls : ∀ l ∈ ls, ∀ done, Circuit.Everywhere Instruction.IsChecked done →
      R.Same (Circuit.unrolled R.instruction (writeLayer done l).reverse)
        (Circuit.unrolled R.instruction done.reverse ++ R.layer l))
    {done : List Operation} (hdone : Circuit.Everywhere Instruction.IsChecked done)
    (owed : Bool) :
    R.Same (Circuit.unrolled R.instruction (writeAll done owed ls).reverse)
      (Circuit.unrolled R.instruction done.reverse ++ R.layers ls) := by
  induction ls generalizing done owed with
  | nil => exact hR.of_eq (List.append_nil _).symm
  | cons l rest ih =>
    rw [List.forall_mem_cons] at hls
    simp only [writeAll]
    split
    · next hvacuous =>
      have hl := hR.append_right (hR.layer_of_isVacuous hvacuous) (R.layers rest)
      exact hR.trans (ih hgood.2 hls.2 hdone owed) (hR.append_left _ (hR.symm hl))
    · -- A step boundary shows nothing, so the layer may as well be written after `done`.
      generalize hticked : (if owed && l.needsTickBefore then
        Circuit.pushReversed done .tick else done) = ticked
      have hchecked : Circuit.Everywhere Instruction.IsChecked ticked := by
        rw [← hticked]
        split
        · exact Circuit.everywhere_pushReversed Circuit.joinable_isChecked hdone
            Instruction.isChecked_tick
        · exact hdone
      have hshows : Circuit.unrolled R.instruction ticked.reverse =
          Circuit.unrolled R.instruction done.reverse := by
        rw [← hticked]
        split
        · rw [Circuit.unrolled_pushReversed hR.additive hdone Instruction.isChecked_tick,
            hR.instruction_tick, List.append_nil]
        · rfl
      have hwritten := hls.1 ticked hchecked
      rw [hshows] at hwritten
      have hnext : Circuit.Everywhere Instruction.IsChecked (writeLayer ticked l) :=
        everywhere_writeLayer Circuit.joinable_isChecked Instruction.isChecked_tick
          (hgood.1.mono hR.checked) hchecked
      rw [layers, ← List.append_assoc]
      exact hR.trans (ih hgood.2 hls.2 hnext _) (hR.append_right hwritten _)

theorem unrolled_writeLayer (hR : R.Faithful good admits) {l : Layer} (hl : Holds good l)
    {done : List Operation} (hdone : Circuit.Everywhere Instruction.IsChecked done) :
    R.Same (Circuit.unrolled R.instruction (writeLayer done l).reverse)
      (Circuit.unrolled R.instruction done.reverse ++ R.layer l) := by
  induction l using loopInduction generalizing done with
  | plain l hplain =>
    rw [holds_of_isLoop_eq_false hplain] at hl
    rw [writeLayer_of_isLoop_eq_false hplain, layer_of_isLoop_eq_false R hplain,
      Circuit.unrolled_foldl_pushReversed hR.additive hdone (hR.checked l hl)]
    exact hR.append_left _ (hR.write l hplain hl)
  | loop count body ih =>
    rw [writeLayer, layer]
    by_cases hcount : count = 0
    · rw [hcount, Circuit.addReversed]
      exact hR.of_eq (List.append_nil _).symm
    · have hbody : AllHold good body := hl hcount
      have hnil : Circuit.Everywhere Instruction.IsChecked [] := Circuit.everywhere_nil _
      have hinner : Circuit.Everywhere Instruction.IsChecked (writeAll [] false body).reverse :=
        Circuit.everywhere_reverse.2 (everywhere_writeAll_of Circuit.joinable_isChecked
          Instruction.isChecked_tick (fun l hl done hdone =>
            everywhere_writeLayer Circuit.joinable_isChecked Instruction.isChecked_tick
              ((allHold_iff.1 hbody l hl).mono hR.checked) hdone) hnil false)
      have hticked := Circuit.everywhere_push Circuit.joinable_isChecked hinner
        Instruction.isChecked_tick
      have hshows : R.Same (Circuit.unrolled R.instruction (writeAll [] false body).reverse)
          (R.layers body) :=
        hR.unrolled_writeAll_of hbody
          (fun l hl done hdone => ih l hl (allHold_iff.1 hbody l hl) hdone) hnil false
      rw [Circuit.tick,
        Circuit.unrolled_addReversed hR.additive hdone _ (Circuit.within_block.2 hticked),
        Circuit.unrolledOperation,
        Circuit.unrolled_push hR.additive hinner Instruction.isChecked_tick, hR.instruction_tick,
        List.append_nil]
      exact hR.append_left _ (hR.flatten_replicate hshows count)

/-- The circuit of good layers shows what the layers show. -/
theorem unrolled_toCircuit (hR : R.Faithful good admits) {ls : LayerCircuit}
    (hgood : AllHold good ls) :
    R.Same (Circuit.unrolled R.instruction ls.toCircuit) (R.layers ls) :=
  hR.unrolled_writeAll_of hgood
    (fun l hl _ hdone => hR.unrolled_writeLayer (allHold_iff.1 hgood l hl) hdone)
    (Circuit.everywhere_nil _) false

end Faithful

namespace Lawful

variable {R} {good : Layer → Prop} {admits : Instruction → Prop}

/-! ## Local optimization -/

theorem layers_filter (hR : R.Lawful good admits) (ls : List Layer) :
    R.Same (R.layers (ls.filter fun l => !l.isVacuous)) (R.layers ls) := by
  induction ls with
  | nil => exact hR.refl _
  | cons l rest ih =>
    rw [List.filter_cons, layers]
    split
    · exact hR.append_left _ ih
    · next hvacuous =>
      have hl := hR.layer_of_isVacuous (by simpa using hvacuous : l.isVacuous = true)
      exact hR.append (hR.symm hl) ih

theorem layers_dropWhile (hR : R.Lawful good admits) (ls : List Layer) :
    R.Same (R.layers (ls.dropWhile isVacuous).reverse) (R.layers ls.reverse) := by
  induction ls with
  | nil => exact hR.refl _
  | cons l rest ih =>
    rw [List.dropWhile_cons]
    split
    · next hvacuous =>
      rw [layers_reverse_cons]
      have hl := hR.append_left (R.layers rest.reverse) (hR.layer_of_isVacuous hvacuous)
      rw [List.append_nil] at hl
      exact hR.trans ih (hR.symm hl)
    · exact hR.refl _

/-- Fused layers show what the two layers show one after another. -/
theorem layers_fuse (hR : R.Lawful good admits) {l next : Layer} (hl : Holds good l)
    (hnext : Holds good next) :
    R.Same (R.layers (fuse l next)) (R.layer l ++ R.layer next) := by
  have hempty : R.Same (R.layer .empty) [] := hR.layer_of_isVacuous rfl
  have hfused := fused_fuse l next
  generalize fuse l next = result at hfused
  cases hfused with
  | emptyRight =>
    have h := hR.append_left (R.layer l) hempty
    rw [List.append_nil] at h
    rw [layers_singleton]
    exact hR.symm h
  | emptyLeft =>
    rw [layers_singleton]
    exact hR.append_right (hR.symm hempty) (R.layer next)
  | rotations a b =>
    rw [layers_singleton]
    exact hR.rotations a b
  | rotationReset a resets =>
    rw [layers, layers_singleton]
    exact hR.rotationReset a resets
  | interactSwap h =>
    rw [layers_singleton]
    exact hR.interactSwap _ _ h hl hnext
  | swapInteract h =>
    rw [layers_singleton]
    exact hR.swapInteract _ _ h hnext hl
  | shifts a b =>
    rw [layers_singleton]
    exact hR.shifts a b
  | joined h =>
    rw [layers_singleton]
    exact hR.layer_absorb h hl hnext
  | kept =>
    rw [layers, layers_singleton]
    exact hR.refl _

theorem layers_pushFused (hR : R.Lawful good admits) {stack : List Layer} {l : Layer}
    (hstack : AllHold good stack) (hl : Holds good l) :
    R.Same (R.layers (pushFused stack l).reverse) (R.layers stack.reverse ++ R.layer l) := by
  refine hR.trans (hR.layers_dropWhile _) ?_
  cases stack with
  | nil => exact hR.of_eq (R.layers_singleton l)
  | cons top rest =>
    obtain ⟨htop, -⟩ := hstack
    have hfused : R.Same (R.layers (top.fusedWith l)) (R.layer top ++ R.layer l) :=
      hR.trans (hR.layers_filter _) (hR.layers_fuse htop hl)
    simp only [List.reverse_append, List.reverse_reverse, layers_append, layers_reverse_cons,
      List.append_assoc]
    exact hR.append_left _ hfused

theorem layers_optimizeFrom_of (hR : R.Lawful good admits) {ls : List Layer}
    (hls : ∀ l ∈ ls, R.Same (R.layer (optimizeLayer l)) (R.layer l)) (hgood : AllHold good ls)
    {stack : List Layer} (hstack : AllHold good stack) :
    R.Same (R.layers (optimizeFrom stack ls).reverse) (R.layers stack.reverse ++ R.layers ls) := by
  induction ls generalizing stack with
  | nil => exact hR.of_eq (List.append_nil _).symm
  | cons l rest ih =>
    rw [List.forall_mem_cons] at hls
    have hl : Holds good (optimizeLayer l) := (hR.stable.holds_optimizeLayer l).2 hgood.1
    have hpush := hR.layers_pushFused hstack hl
    have hrest := ih hls.2 hgood.2 ((hR.stable.allHold_pushFused stack _).2 ⟨hstack, hl⟩)
    rw [optimizeFrom, layers, ← List.append_assoc]
    exact hR.trans hrest (hR.append_right (hR.trans hpush (hR.append_left _ hls.1)) _)

theorem layer_optimizeLayer (hR : R.Lawful good admits) {l : Layer} (hl : Holds good l) :
    R.Same (R.layer (optimizeLayer l)) (R.layer l) := by
  induction l using loopInduction with
  | plain l hplain =>
    rw [optimizeLayer_of_isLoop_eq_false hplain]
    exact hR.refl _
  | loop count body ih =>
    rw [optimizeLayer, layer, layer]
    by_cases hcount : count = 0
    · rw [hcount]
      exact hR.refl _
    · have hbody : AllHold good body := hl hcount
      exact hR.flatten_replicate (hR.layers_optimizeFrom_of
        (fun l hl => ih l hl (allHold_iff.1 hbody l hl)) hbody (show AllHold good [] from trivial))
        count

/-- Local optimization keeps what layers show. -/
theorem layers_optimized (hR : R.Lawful good admits) {ls : LayerCircuit}
    (hgood : AllHold good ls) : R.Same (R.layers ls.optimized) (R.layers ls) :=
  hR.layers_optimizeFrom_of
    (fun l hl => hR.layer_optimizeLayer (allHold_iff.1 hgood l hl)) hgood trivial

/-! ## Change to the Z basis -/

theorem layers_layerToZ (hR : R.Lawful good admits)
    (hsame : ∀ l : Layer, l.isLoop = false → good l →
      R.Same ((layerToZ l).flatMap R.plain) (R.plain l))
    {l : Layer} (hl : Holds good l) : R.Same (R.layers (layerToZ l)) (R.layer l) := by
  induction l using loopInduction with
  | plain l hplain =>
    rw [layers_of_isLoop_eq_false R (isLoop_layerToZ hplain), layer_of_isLoop_eq_false R hplain]
    exact hsame l hplain ((holds_of_isLoop_eq_false hplain).1 hl)
  | loop count body ih =>
    rw [layerToZ, layers_singleton, layer, layer, toZ_eq_flatMap]
    by_cases hcount : count = 0
    · rw [hcount]
      exact hR.refl _
    · have hbody := allHold_iff.1 (hl hcount)
      exact hR.flatten_replicate
        (hR.layers_same_of_forall fun l hl => ih l hl (hbody l hl)) count

/-- A change of layers to the Z basis that keeps what each shows keeps what all show. -/
theorem layers_toZ (hR : R.Lawful good admits)
    (hsame : ∀ l : Layer, l.isLoop = false → good l →
      R.Same ((layerToZ l).flatMap R.plain) (R.plain l))
    {ls : LayerCircuit} (hgood : AllHold good ls) : R.Same (R.layers (toZ ls)) (R.layers ls) := by
  rw [toZ_eq_flatMap]
  exact hR.layers_same_of_forall fun l hl =>
    hR.layers_layerToZ hsame (allHold_iff.1 hgood l hl)

end Lawful

end Reading

end StabCircuit
