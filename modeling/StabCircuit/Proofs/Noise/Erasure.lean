import StabCircuit.Proofs.Circuit.Products
import StabCircuit.Proofs.Noise.Injection

/-!
# Noise injection only adds noise

Erasing the error channels and flip probabilities of a circuit with noise, and
appending what is left, gives the circuit that the noise was put into, with bodies
of blocks closed by a step boundary.  Pieces that were written one by one merge
again, since erasing takes away all that kept them apart.
-/

namespace StabCircuit

/-! ## Erasing noise -/

/-- The instruction without the flip probability of a measurement. -/
def Instruction.withoutFlip (i : Instruction) : Instruction :=
  if i.kind.isMeasurement then { i with args := [] } else i

namespace Circuit

mutual

/-- Appends an operation without its noise to operations in reverse order. -/
def eraseOperation (done : List Operation) : Operation → List Operation
  | .instruction i => if i.kind.isNoise then done else pushReversed done i.withoutFlip
  | .block count body => addReversed done (.block count (eraseAll [] body).reverse)

/-- Appends operations without their noise to operations in reverse order. -/
def eraseAll (done : List Operation) : List Operation → List Operation
  | [] => done
  | op :: rest => eraseAll (eraseOperation done op) rest

end

/-- The circuit without error channels and flip probabilities, appended anew. -/
def withoutNoise (c : Circuit) : Circuit := (eraseAll [] c).reverse

/-- A body that ends with a step boundary. -/
def closed (body : Circuit) : Circuit := if body.endsWithTick then body else body.tick

mutual

/-- The operation with the bodies of blocks closed by a step boundary. -/
def tickedOperation : Operation → Operation
  | .instruction i => .instruction i
  | .block count body => .block count (closed (ticked body))

/-- The circuit with every body of a block closed by a step boundary. -/
def ticked : List Operation → List Operation
  | [] => []
  | op :: rest => tickedOperation op :: ticked rest

end

/-- What is left of operations in reverse order when their noise is erased. -/
def erased (done : List Operation) : List Operation := eraseAll [] done.reverse

theorem eraseAll_append (done c d : List Operation) :
    eraseAll done (c ++ d) = eraseAll (eraseAll done c) d := by
  induction c generalizing done with
  | nil => rfl
  | cons op rest ih => rw [List.cons_append, eraseAll, ih, eraseAll]

theorem erased_cons (op : Operation) (done : List Operation) :
    erased (op :: done) = eraseOperation (erased done) op := by
  rw [erased, List.reverse_cons, eraseAll_append]
  rfl

theorem withoutNoise_reverse (done : List Operation) :
    withoutNoise done.reverse = (erased done).reverse := rfl

theorem fuses_withoutFlip {last next : Instruction} (h : fuses last next = true) :
    fuses last.withoutFlip next.withoutFlip = true := by
  have hkind := kind_eq_of_fuses h
  unfold Instruction.withoutFlip
  rw [hkind]
  split
  · simp only [fuses, Bool.and_eq_true] at h ⊢
    exact ⟨h.1, rfl⟩
  · exact h

theorem withoutFlip_join {last next : Instruction} (h : fuses last next = true) :
    (last.join next).withoutFlip = last.withoutFlip.join next.withoutFlip := by
  have hkind := kind_eq_of_fuses h
  unfold Instruction.withoutFlip
  rw [Instruction.kind_join, hkind]
  split <;> rfl

/-- Noise is erased instruction by instruction, whether or not they merged. -/
theorem erased_pushReversed (done : List Operation) (i : Instruction) :
    erased (pushReversed done i) = eraseOperation (erased done) (.instruction i) := by
  obtain ⟨last, rest, rfl, hfuses, hpush⟩ | ⟨-, hpush⟩ := pushReversed_cases done i
  · have hkind : (last.join i).kind = i.kind := kind_eq_of_fuses hfuses
    have hlast : last.kind = i.kind := kind_eq_of_fuses hfuses
    rw [hpush, erased_cons, erased_cons]
    simp only [eraseOperation, hkind, hlast]
    split
    · rfl
    · rw [withoutFlip_join hfuses, pushReversed_pushReversed (fuses_withoutFlip hfuses)]
  · rw [hpush, erased_cons]

theorem erased_foldl_pushReversed (done : List Operation) (is : List Instruction) :
    erased (is.foldl pushReversed done) =
      is.foldl (fun ops i => eraseOperation ops (.instruction i)) (erased done) := by
  induction is generalizing done with
  | nil => rfl
  | cons i is ih => rw [List.foldl_cons, ih, erased_pushReversed, List.foldl_cons]

/-! ## Step boundaries at the end -/

theorem endsWithTick_reverse_cons (op : Operation) (done : List Operation) :
    endsWithTick (op :: done).reverse =
      match op with
      | .instruction i => i.isTick
      | .block _ _ => false := by
  cases op <;> simp [endsWithTick]

theorem endsWithTick_pushReversed (done : List Operation) (i : Instruction) :
    endsWithTick (pushReversed done i).reverse = i.isTick := by
  obtain ⟨last, rest, -, hfuses, hpush⟩ | ⟨-, hpush⟩ := pushReversed_cases done i
  · rw [hpush, endsWithTick_reverse_cons]
    simp only [Instruction.isTick, Instruction.join, name_eq_of_fuses hfuses]
  · rw [hpush, endsWithTick_reverse_cons]

theorem endsWithTick_foldl_pushReversed {is : List Instruction} (hne : is ≠ [])
    (htick : ∀ i ∈ is, i.isTick = false) (done : List Operation) :
    endsWithTick (is.foldl pushReversed done).reverse = false := by
  induction is generalizing done with
  | nil => exact absurd rfl hne
  | cons i is ih =>
    rw [List.forall_mem_cons] at htick
    rw [List.foldl_cons]
    cases is with
    | nil => rw [List.foldl_nil, endsWithTick_pushReversed, htick.1]
    | cons j is => exact ih (by simp) htick.2 _

theorem tick_eq_append (c : Circuit) : c.tick = c ++ [.instruction .tick] := by
  rw [tick, push, pushReversed_of_not_fuses fun last _ _ => fuses_tick last]
  simp

theorem settled_closed {body : Circuit} (h : Settled body) : Settled body.closed := by
  unfold closed
  split
  · exact h
  · rw [tick_eq_append, settled_append]
    refine ⟨h, by simp [Settled, SettledOperation], ?_⟩
    intro last _ next hnext
    obtain rfl : .instruction .tick = next := by simpa using hnext
    cases last with
    | instruction last => exact fuses_tick last
    | block count body => trivial

theorem apart_tickedOperation {last next : Operation} (h : Apart last next) :
    Apart (tickedOperation last) (tickedOperation next) := by
  cases last <;> cases next <;> simp only [tickedOperation]
  case instruction.instruction => exact h
  all_goals trivial

mutual

theorem settledOperation_ticked : (op : Operation) → SettledOperation op →
    SettledOperation (tickedOperation op)
  | .instruction _, _ => by
    rw [tickedOperation]
    trivial
  | .block count body, h => by
    rw [SettledOperation] at h
    rw [tickedOperation, SettledOperation]
    exact ⟨h.1, settled_closed (settled_ticked body h.2)⟩

/-- Closing bodies keeps a circuit settled. -/
theorem settled_ticked : (c : List Operation) → Settled c → Settled (ticked c)
  | [], _ => trivial
  | op :: rest, h => by
    rw [Settled] at h
    rw [ticked, Settled]
    refine ⟨settledOperation_ticked op h.1, ?_, settled_ticked rest h.2.2⟩
    intro next hnext
    cases rest with
    | nil => simp [ticked] at hnext
    | cons op' rest =>
      obtain rfl : tickedOperation op' = next := by simpa [ticked] using hnext
      exact apart_tickedOperation (h.2.1 op' rfl)

end

end Circuit

/-! ## Pieces that merge again -/

namespace Instruction

/-- An instruction that noise can be put into and taken out of: no error channel, targets unless it
is an annotation or step boundary, no doubled combiner, no argument that is not a number, and none
on measurements and step boundaries. -/
structure IsBare (i : Instruction) : Prop where
  noise : i.kind.isNoise = false
  targets : i.kind.isMetadata = false → i.targets ≠ []
  combiners : Target.NoDoubledCombiner i.targets
  numbers : ∀ x ∈ i.args, x.isNaN = false
  args : i.kind.isMeasurement = true ∨ i.kind = .tick → i.args = []

instance (i : Instruction) : Decidable i.IsBare :=
  decidable_of_iff
    (i.kind.isNoise = false ∧ (i.kind.isMetadata = false → i.targets ≠ []) ∧
      Target.NoDoubledCombiner i.targets ∧ (∀ x ∈ i.args, x.isNaN = false) ∧
      (i.kind.isMeasurement = true ∨ i.kind = .tick → i.args = []))
    ⟨fun h => ⟨h.1, h.2.1, h.2.2.1, h.2.2.2.1, h.2.2.2.2⟩, fun h => ⟨h.1, h.2, h.3, h.4, h.5⟩⟩

theorem IsBare.withoutFlip {i : Instruction} (h : i.IsBare) : i.withoutFlip = i := by
  unfold Instruction.withoutFlip
  split
  · next hkind => rw [← h.args (.inl hkind)]
  · rfl

/-- An instruction merges with its like unless it is an annotation or a product of errors. -/
theorem fuses_self {i : Instruction} (hi : i.IsChecked) (hkind : i.kind.isMetadata = false)
    (hproduct : i.kind ≠ .noiseProduct) (hnumbers : ∀ x ∈ i.args, x.isNaN = false) :
    Circuit.fuses i i = true := by
  obtain ⟨g, -, hgate, hg, -⟩ := hi.exists_gate
  have hfusable : g.isFusable = true := by
    rw [hg] at hkind hproduct
    unfold Gate.isFusable
    cases hk : g.kind <;> simp_all [GateKind.isMetadata]
  simp [Circuit.fuses, hgate, hfusable, Scalar.listNumEq_refl hnumbers]

/-- The targets of the pieces, one after another, are those of the instruction. -/
theorem flatMap_pieces {i : Instruction} (hi : i.IsChecked) (hkind : i.kind.isMetadata = false)
    (hcombiners : Target.NoDoubledCombiner i.targets) :
    i.targetGroups.flatMap (fun group => (i.pieceOf group).targets) = i.targets := by
  obtain ⟨g, -, -, hg, hfault⟩ := hi.exists_gate
  by_cases hproduct : i.kind.isProduct = true
  · have hgate : g.kind = .measureProduct ∨ g.kind = .noiseProduct := by
      rw [hg] at hproduct
      revert hproduct
      cases g.kind <;> simp [GateKind.isProduct]
    obtain ⟨hhead, hlast, -⟩ := (targetFault?_product_iff hgate).1 hfault
    simp only [pieceOf, hproduct, if_true, targetGroups_of_isProduct hproduct]
    exact Target.joinProducts_productGroups hhead hlast hcombiners
  · simp only [pieceOf, if_neg hproduct]
    by_cases hpairwise : i.kind.isPairwise = true
    · rw [targetGroups_of_isPairwise hpairwise, List.flatMap_id']
      exact Target.flatten_pairs i.targets
    · have hsingle : i.kind.isSingle = true := by
        rw [Bool.not_eq_true] at hproduct hpairwise
        rw [GateKind.isSingle, hkind, hproduct, hpairwise]
        rfl
      rw [targetGroups_of_isSingle hsingle]
      simp [List.flatMap_map]

/-- Lists of targets appended under one name and the same arguments merge. -/
theorem foldl_pushReversed_pieces {i : Instruction} (h : Circuit.fuses i i = true)
    {groups : List (List Target)} (hne : groups ≠ []) (done : List Operation) :
    (groups.map fun ts => { i with targets := ts }).foldl Circuit.pushReversed done =
      Circuit.pushReversed done { i with targets := groups.flatten } := by
  induction groups generalizing done with
  | nil => exact absurd rfl hne
  | cons ts groups ih =>
    rw [List.map_cons, List.foldl_cons]
    cases hgroups : groups with
    | nil => simp
    | cons ts' groups' =>
      have hfuses : Circuit.fuses { i with targets := ts } { i with targets := groups.flatten } =
          true := h
      rw [← hgroups, ih (by simp [hgroups]), Circuit.pushReversed_pushReversed hfuses]
      rfl

end Instruction

/-! ## Copies without their noise -/

namespace NoiseContext

open Circuit

theorem eraseOperation_copied {p j : Instruction} (h : Copied p j) (done : List Operation) :
    eraseOperation done (.instruction j) = eraseOperation done (.instruction p) := by
  cases h with
  | same => rfl
  | flipped x hkind =>
    have hkind' : Instruction.kind { p with args := [x] } = p.kind := rfl
    simp [eraseOperation, hkind', Instruction.withoutFlip, hkind]

theorem eraseOperation_piece {i p : Instruction} (hi : i.IsBare) (hname : p.name = i.name)
    (hargs : p.args = i.args) (done : List Operation) :
    eraseOperation done (.instruction p) = pushReversed done p := by
  have hkind : p.kind = i.kind := by simp only [Instruction.kind, Instruction.gate?, hname]
  have hflip : p.withoutFlip = p := by
    unfold Instruction.withoutFlip
    split
    · next hmeasured =>
      rw [← hi.args (.inl (hkind ▸ hmeasured)), ← hargs]
    · rfl
  rw [eraseOperation, hkind, hi.noise, hflip]
  rfl

theorem foldl_erase_copied {i : Instruction} (hi : i.IsBare) {ps js : List Instruction}
    (hps : ∀ p ∈ ps, p.name = i.name ∧ p.args = i.args) (h : List.Forall₂ Copied ps js)
    (done : List Operation) :
    js.foldl (fun ops j => eraseOperation ops (.instruction j)) done =
      ps.foldl pushReversed done := by
  induction h generalizing done with
  | nil => rfl
  | cons hcopied _ ih =>
    rw [List.forall_mem_cons] at hps
    rw [List.foldl_cons, List.foldl_cons, eraseOperation_copied hcopied,
      eraseOperation_piece hi hps.1.1 hps.1.2, ih hps.2]

theorem piecesOf_eq (i : Instruction) :
    piecesOf i = (i.targetGroups.map fun group => (i.pieceOf group).targets).map
      fun ts => { i with targets := ts } := by
  rw [List.map_map]
  rfl

/-- The pieces of an instruction, appended one after another, merge again; a single piece need not
merge. -/
theorem foldl_pushReversed_piecesOf {i : Instruction} (hi : i.IsChecked)
    (hkind : i.kind.isMetadata = false) (hsome : i.targets ≠ [])
    (hcombiners : Target.NoDoubledCombiner i.targets)
    (hmerges : fuses i i = true ∨ i.targetGroups.length = 1) (done : List Operation) :
    (piecesOf i).foldl pushReversed done = pushReversed done i := by
  have htargets := Instruction.flatMap_pieces hi hkind hcombiners
  rcases hmerges with hfuses | hone
  · have hne : (i.targetGroups.map fun group => (i.pieceOf group).targets) ≠ [] := by
      intro hnil
      rw [List.flatMap_def, hnil] at htargets
      exact hsome htargets.symm
    rw [piecesOf_eq, Instruction.foldl_pushReversed_pieces hfuses hne, ← List.flatMap_def, htargets]
  · obtain ⟨group, hgroup⟩ := List.length_eq_one_iff.1 hone
    rw [hgroup, List.flatMap_singleton] at htargets
    rw [piecesOf_eq, hgroup, List.map_singleton, List.map_singleton, htargets]
    rfl

/-- Without its noise, what is written for a bare instruction is that instruction. -/
theorem foldl_erase_copiedAs {i : Instruction} {js : List Instruction} (hi : i.IsChecked)
    (hbare : i.IsBare) (h : CopiedAs i js) (done : List Operation) :
    js.foldl (fun ops j => eraseOperation ops (.instruction j)) done = pushReversed done i := by
  cases h with
  | whole => exact eraseOperation_piece hbare rfl rfl done
  | pieces hkind hjs =>
    have hpieces : ∀ p ∈ piecesOf i, p.name = i.name ∧ p.args = i.args := by
      intro p hp
      obtain ⟨group, -, rfl⟩ := List.mem_map.1 hp
      exact ⟨rfl, rfl⟩
    have hproduct : i.kind ≠ .noiseProduct := by
      intro hproduct
      have hnoise := hbare.noise
      rw [hproduct] at hnoise
      cases hnoise
    rw [foldl_erase_copied hbare hpieces hjs, foldl_pushReversed_piecesOf hi hkind
      (hbare.targets hkind) hbare.combiners
      (.inl (Instruction.fuses_self hi hkind hproduct hbare.numbers))]

theorem foldl_erase_copies {is : List Instruction} {copies : List (List Instruction)}
    (his : ∀ i ∈ is, i.IsChecked ∧ i.IsBare) (h : List.Forall₂ CopiedAs is copies)
    (done : List Operation) :
    copies.flatten.foldl (fun ops j => eraseOperation ops (.instruction j)) done =
      is.foldl pushReversed done := by
  induction h generalizing done with
  | nil => rfl
  | cons hcopied _ ih =>
    rw [List.forall_mem_cons] at his
    rw [List.flatten_cons, List.foldl_append, foldl_erase_copiedAs his.1.1 his.1.2 hcopied,
      ih his.2, List.foldl_cons]

theorem foldl_erase_channels {js : List Instruction} (hjs : ∀ j ∈ js, IsChannel j)
    (done : List Operation) :
    js.foldl (fun ops j => eraseOperation ops (.instruction j)) done = done := by
  induction js with
  | nil => rfl
  | cons j js ih =>
    rw [List.forall_mem_cons] at hjs
    rw [List.foldl_cons, eraseOperation, if_pos hjs.1.noise, ih hjs.2]

theorem isTick_of_copiedAs {i : Instruction} {js : List Instruction} (h : CopiedAs i js) :
    ∀ j ∈ js, j.isTick = i.isTick := by
  cases h with
  | whole => simp
  | pieces _ hjs =>
    have hname : ∀ p ∈ piecesOf i, p.isTick = i.isTick := by
      intro p hp
      obtain ⟨group, -, rfl⟩ := List.mem_map.1 hp
      rfl
    generalize piecesOf i = ps at hname hjs
    induction hjs with
    | nil => simp
    | cons hcopied _ ih =>
      rw [List.forall_mem_cons] at hname ⊢
      refine ⟨?_, ih hname.2⟩
      rw [← hname.1]
      cases hcopied <;> rfl

theorem IsChannel.isTick {j : Instruction} (h : IsChannel j) : j.isTick = false := by
  have hnoise := h.noise
  rw [Instruction.isTick, beq_eq_false_iff_ne]
  intro hname
  rw [Instruction.kind_of_gate? (Instruction.gate?_of_name hname)] at hnoise
  simp [Gate.kind, GateKind.isNoise] at hnoise

/-! ## The run -/

theorem isTick_of_copies {is : List Instruction} {copies : List (List Instruction)}
    (his : ∀ i ∈ is, i.isTick = false) (h : List.Forall₂ CopiedAs is copies) :
    ∀ j ∈ copies.flatten, j.isTick = false := by
  induction h with
  | nil => simp
  | cons hcopied _ ih =>
    rw [List.forall_mem_cons] at his
    rw [List.flatten_cons, List.forall_mem_append]
    refine ⟨?_, ih his.2⟩
    intro j hj
    rw [isTick_of_copiedAs hcopied j hj, his.1]

theorem flatten_copies_ne_nil {is : List Instruction} {copies : List (List Instruction)}
    (his : ∀ i ∈ is, i.IsChecked ∧ i.IsBare) (hne : is ≠ [])
    (h : List.Forall₂ CopiedAs is copies) : copies.flatten ≠ [] := by
  cases h with
  | nil => exact absurd rfl hne
  | cons hcopied _ =>
    rw [List.forall_mem_cons] at his
    intro hnil
    rw [List.flatten_cons, List.append_eq_nil_iff] at hnil
    have hlost := foldl_erase_copiedAs his.1.1 his.1.2 hcopied []
    rw [hnil.1] at hlost
    simp [pushReversed] at hlost

/-- Without its noise, the progress shows operations, in reverse order.  Before the first
instruction of a moment, it ends with a step boundary exactly when what it shows does. -/
structure Restores (p : Progress) (ops : List Operation) : Prop where
  pending : ∀ i ∈ p.pending, (i.IsChecked ∧ i.IsBare) ∧ i.isTick = false
  shown : p.pending.reverse.foldl pushReversed (erased p.done) = ops
  boundary : p.pending = [] → endsWithTick p.done.reverse = endsWithTick ops.reverse

variable {ctx : NoiseContext}

theorem moment_nil (done : List Operation) : ctx.moment done [] = .ok done := rfl

theorem Restores.flush (hvalid : ctx.model.IsValid) {p : Progress} {ops out : List Operation}
    (hp : Restores p ops) (h : ctx.flush p = .ok out) :
    erased out = ops ∧ endsWithTick out.reverse = endsWithTick ops.reverse := by
  by_cases hempty : p.pending = []
  · have hout : out = p.done := by
      rw [NoiseContext.flush, hempty, List.reverse_nil, moment_nil] at h
      exact (Except.ok.inj h).symm
    have hshown := hp.shown
    rw [hempty] at hshown
    rw [hout]
    exact ⟨hshown, hp.boundary hempty⟩
  · obtain ⟨copies, channels, hcopies, hchannels, rfl⟩ := copied_of_moment hvalid h
    have hbare : ∀ i ∈ p.pending.reverse, i.IsChecked ∧ i.IsBare := by
      intro i hi
      exact (hp.pending i (List.mem_reverse.1 hi)).1
    have htick : ∀ i ∈ p.pending.reverse, i.isTick = false := by
      intro i hi
      exact (hp.pending i (List.mem_reverse.1 hi)).2
    have hne : p.pending.reverse ≠ [] := by simpa using hempty
    constructor
    · rw [erased_foldl_pushReversed, List.foldl_append, foldl_erase_copies hbare hcopies,
        foldl_erase_channels hchannels, hp.shown]
    · -- The moment has an instruction, so neither ends with a step boundary.
      have hwritten : ∀ j ∈ copies.flatten ++ channels, j.isTick = false :=
        List.forall_mem_append.2
          ⟨isTick_of_copies htick hcopies, fun j hj => (hchannels j hj).isTick⟩
      have hsome := flatten_copies_ne_nil hbare hne hcopies
      rw [endsWithTick_foldl_pushReversed (by simp [hsome]) hwritten, ← hp.shown,
        endsWithTick_foldl_pushReversed hne htick]

theorem restores_empty : Restores {} [] := ⟨by simp, rfl, fun _ => rfl⟩

theorem targets_of_isTick {i : Instruction} (hi : i.IsChecked) (h : i.isTick = true) :
    i.targets = [] := by
  have hname : i.name = Gate.tick.name := by simpa [Instruction.isTick] using h
  obtain ⟨g, hg, -, -, hfault⟩ := hi.exists_gate
  obtain rfl : g = .tick := Gate.name_injective (hg.symm.trans hname)
  simpa [Instruction.targetFault?, Gate.kind] using hfault

theorem eq_tick {i : Instruction} (hi : i.IsChecked)
    (hargs : i.kind = .tick → i.args = []) (h : i.isTick = true) : i = .tick := by
  have hname : i.name = Gate.tick.name := by simpa [Instruction.isTick] using h
  have htargets := targets_of_isTick hi h
  have hnone := hargs (Instruction.kind_of_gate? (Instruction.gate?_of_name hname))
  obtain ⟨name, targets, args⟩ := i
  simp_all [Instruction.tick]

theorem isBare_tick : Instruction.tick.IsBare := by decide +kernel

theorem erased_tick (done : List Operation) :
    erased (pushReversed done .tick) = pushReversed (erased done) .tick := by
  rw [erased_pushReversed, eraseOperation_piece isBare_tick rfl rfl]

/-- Without its noise, a closed body is the closed body without its noise. -/
theorem withoutNoise_closeBody {inner ops : List Operation} (h : erased inner = ops)
    (htick : endsWithTick inner.reverse = endsWithTick ops.reverse) :
    withoutNoise (closeBody inner) = closed ops.reverse := by
  unfold closeBody closed
  dsimp only
  rw [htick]
  split
  · rw [withoutNoise_reverse, h]
  · rw [Circuit.tick, Circuit.tick, push, push, List.reverse_reverse, List.reverse_reverse,
      withoutNoise_reverse, erased_tick, h]

mutual

theorem Restores.stepOperation (hvalid : ctx.model.IsValid) :
    (op : Operation) → Within (fun i => i.IsChecked ∧ i.IsBare) op → SettledOperation op →
      {p out : Progress} → {ops : List Operation} → Restores p ops →
      NoiseContext.stepOperation ctx p op = .ok out →
      Restores out (addReversed ops (tickedOperation op))
  | .instruction i, hop, _, p, out, ops, hp, h => by
    rw [within_instruction] at hop
    rw [NoiseContext.stepOperation] at h
    rw [tickedOperation, addReversed]
    split at h
    · next htick =>
      obtain ⟨done, hdone, rfl⟩ := map_eq_ok.1 h
      obtain ⟨hshown, -⟩ := hp.flush hvalid hdone
      obtain rfl := eq_tick hop.1 (fun hkind => hop.2.args (.inr hkind)) htick
      constructor
      · simp
      · rw [← hshown, ← erased_tick]
        rfl
      · intro _
        rw [endsWithTick_pushReversed, endsWithTick_pushReversed]
    · next htick =>
      cases h
      constructor
      · exact List.forall_mem_cons.2 ⟨⟨hop, by simpa using htick⟩, hp.pending⟩
      · rw [List.reverse_cons, List.foldl_append, hp.shown]
        rfl
      · intro hnil
        cases hnil
  | .block count body, hop, hsettled, p, out, ops, hp, h => by
    rw [within_block] at hop
    rw [SettledOperation] at hsettled
    rw [NoiseContext.stepOperation] at h
    obtain ⟨done, hdone, h⟩ := bind_eq_ok.1 h
    obtain ⟨progress, hprogress, h⟩ := bind_eq_ok.1 h
    obtain ⟨inner, hinner, h⟩ := bind_eq_ok.1 h
    cases h
    obtain ⟨hshown, -⟩ := hp.flush hvalid hdone
    -- The body is a run of its own; being settled, its operations append as they are.
    have hrun := Restores.stepAll hvalid body hop hsettled.2 restores_empty hprogress
    rw [addAllReversed_nil_of_settled (settled_ticked body hsettled.2)] at hrun
    obtain ⟨hinnerShown, hinnerTick⟩ := hrun.flush hvalid hinner
    have hbody := withoutNoise_closeBody hinnerShown hinnerTick
    rw [List.reverse_reverse] at hbody
    rw [tickedOperation]
    constructor
    · simp
    · rw [addReversed_block hsettled.1, addReversed_block hsettled.1]
      change erased _ = _
      rw [erased_cons, hshown, eraseOperation, addReversed_block hsettled.1]
      rw [← hbody]
      rfl
    · intro _
      rw [addReversed_block hsettled.1, addReversed_block hsettled.1, endsWithTick_reverse_cons,
        endsWithTick_reverse_cons]

theorem Restores.stepAll (hvalid : ctx.model.IsValid) :
    (c : List Operation) → Everywhere (fun i => i.IsChecked ∧ i.IsBare) c → Settled c →
      {p out : Progress} → {ops : List Operation} → Restores p ops →
      NoiseContext.stepAll ctx p c = .ok out → Restores out (addAllReversed ops (ticked c))
  | [], _, _, p, out, ops, hp, h => by
    cases h
    rw [ticked, addAllReversed]
    exact hp
  | op :: rest, hc, hsettled, p, out, ops, hp, h => by
    rw [everywhere_cons] at hc
    rw [Settled] at hsettled
    obtain ⟨mid, hmid, hrest⟩ := bind_eq_ok.1 h
    have hstep := Restores.stepOperation hvalid op hc.1 hsettled.1 hp hmid
    rw [ticked, addAllReversed]
    exact Restores.stepAll hvalid rest hc.2 hsettled.2.2 hstep hrest

end

end NoiseContext

/-- Whatever noise a model puts into a circuit, taking it out again gives the circuit, with the
bodies of its blocks closed by a step boundary. -/
theorem withoutNoise_noisyCircuit {c out : Circuit} {model : NoiseModel}
    {immune : OrderedSet Nat} {system : Option (OrderedSet Nat)} (hc : c.Built)
    (hbare : Circuit.Everywhere Instruction.IsBare c)
    (h : noisyCircuit c model immune system = .ok out) :
    Circuit.withoutNoise out = Circuit.ticked c := by
  obtain ⟨_, hvalidate, hinject⟩ := bind_eq_ok.1 h
  have hvalid := NoiseModel.isValid_of_validate (lift_eq_ok.1 hvalidate)
  obtain ⟨p, hp, hinject⟩ := bind_eq_ok.1 hinject
  obtain ⟨done, hdone, hinject⟩ := bind_eq_ok.1 hinject
  cases hinject
  have hall : Circuit.Everywhere (fun i => i.IsChecked ∧ i.IsBare) c := by
    intro i hi
    exact ⟨hc.checked i hi, hbare i hi⟩
  have hrun := NoiseContext.Restores.stepAll hvalid c hall hc.settled
    NoiseContext.restores_empty hp
  obtain ⟨hshown, -⟩ := hrun.flush hvalid hdone
  rw [Circuit.withoutNoise_reverse, hshown,
    Circuit.addAllReversed_nil_of_settled (Circuit.settled_ticked c hc.settled),
    List.reverse_reverse]

/-- Rounds of a gate, measured products and single measurements, whose body ends with a detector. -/
def productRounds : Circuit :=
  Circuit.pushRepeat (List.foldl Circuit.push [] [.onQubits (.reset .z) [0, 1, 2] [], .tick]) 2
    (List.foldl Circuit.push []
      [.onQubits (.controlled .z .x) [0, 1] [], .tick,
        ⟨Gate.measureProduct.name, [.pauli .x 0, .combiner, .pauli .y 1, .pauli .z 2], []⟩, .tick,
        .onQubits (.measure .z) [0, 1] [],
        ⟨Gate.detector.name, [.record (-1), .record (-4)], [1 / 2]⟩])

theorem withoutNoise_noisyCircuit_productRounds :
    productRounds.Built ∧ Circuit.Everywhere Instruction.IsBare productRounds ∧
      ∃ out, noisyCircuit productRounds (NoiseModel.uniform (1 / 100)) (OrderedSet.ofList [1])
          none = .ok out ∧
        Circuit.withoutNoise out = Circuit.ticked productRounds := by
  have hbuilt : productRounds.Built :=
    .pushRepeat (.foldl_push .nil (by decide +kernel)) (.foldl_push .nil (by decide +kernel)) 2
  have hbare : Circuit.Everywhere Instruction.IsBare productRounds := by decide +kernel
  have hok : (noisyCircuit productRounds (NoiseModel.uniform (1 / 100)) (OrderedSet.ofList [1])
      none).isOk = true := by
    decide +kernel
  refine ⟨hbuilt, hbare, ?_⟩
  cases hout : noisyCircuit productRounds (NoiseModel.uniform (1 / 100)) (OrderedSet.ofList [1])
      none with
  | error e => simp [hout, Except.isOk, Except.toBool] at hok
  | ok out => exact ⟨out, rfl, withoutNoise_noisyCircuit hbuilt hbare hout⟩

end StabCircuit
