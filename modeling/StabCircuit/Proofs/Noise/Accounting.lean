import Mathlib.Algebra.GroupWithZero.Nat
import StabCircuit.Proofs.Noise.Moments
import StabCircuit.Proofs.Noise.Requests

/-!
# Noise is accounted for

The error channels that injection puts into a moment name a qubit, at a given strength,
exactly as often as the rules for the pieces that touch it, idling, waiting and the noise of
every moment call for.  Neighbouring channels merge when they are written, and channels
of positive strength merge only with their like, so that nothing is lost or gained.
-/

namespace StabCircuit

/-! ## Strengths -/

namespace Scalar

theorem position_pos_of_numLt {x : Scalar} (h : (0 : Scalar).numLt x = true) : 0 < x.position := by
  have hzero : (0 : Scalar).position = 0 := by decide +kernel
  rw [numLt, Bool.and_eq_true, decide_eq_true_eq, hzero] at h
  exact h.2

/-- Positive numbers at the same position are equal. -/
theorem eq_of_position_eq {x y : Scalar} (hx : 0 < x.position) (h : y.position = x.position) :
    y = x := by
  have hrank : ∀ {z : Scalar}, 0 < z.position → z.rank = z.position := by
    intro z hz
    unfold position at hz
    unfold rank position
    split <;> simp_all
    omega
  apply eq_of_rank_eq
  rw [hrank hx, hrank (h.symm ▸ hx), h]

end Scalar

namespace Circuit

/-- Instructions that merge have the same positive strength or neither has it. -/
theorem args_eq_iff_of_fuses {last next : Instruction} (h : fuses last next = true) {p : Scalar}
    (hp : (0 : Scalar).numLt p = true) : last.args = [p] ↔ next.args = [p] := by
  have hpositive := Scalar.position_pos_of_numLt hp
  have hargs : Scalar.listNumEq last.args next.args = true := by
    simp only [fuses, Bool.and_eq_true] at h
    exact h.2
  have hpositions := Instruction.position_eq_of_listNumEq hargs
  have hsame : ∀ {xs ys : List Scalar}, xs.map Scalar.position = ys.map Scalar.position →
      xs = [p] → ys = [p] := by
    rintro xs ys hmap rfl
    obtain ⟨y, rfl, hy⟩ := List.map_eq_singleton_iff.1 hmap.symm
    rw [Scalar.eq_of_position_eq hpositive hy]
  exact ⟨hsame hpositions, hsame hpositions.symm⟩

/-! ## Channels and merging -/

variable {β : Type}

/-- What the instructions of a channel at a strength show. -/
def named (read : Instruction → List β) (g : Gate) (p : Scalar) (ks : List Instruction) : List β :=
  ks.flatMap fun k => if k.name = g.name ∧ k.args = [p] then read k else []

theorem named_append (read : Instruction → List β) (g : Gate) (p : Scalar)
    (js ks : List Instruction) :
    named read g p (js ++ ks) = named read g p js ++ named read g p ks :=
  List.flatMap_append

/-- A checked instruction that has a positive strength if it is an error channel. -/
def HasStrength (i : Instruction) : Prop :=
  i.IsChecked ∧ (i.kind.isNoise = true → ∃ p, i.args = [p] ∧ (0 : Scalar).numLt p = true)

theorem joinable_hasStrength : Joinable HasStrength where
  checked := fun _ h => h.1
  join := fun _ _ hlast hnext h => ⟨hlast.1.join hnext.1 h, hlast.2⟩

theorem unrolled_map_instruction (f : Instruction → List β) (ks : List Instruction) :
    unrolled f (ks.map .instruction) = ks.flatMap f := by
  induction ks with
  | nil => rfl
  | cons k ks ih => rw [List.map_cons, unrolled, unrolledOperation, ih, List.flatMap_cons]

theorem instructions_map_instruction (ks : List Instruction) :
    instructions (ks.map .instruction) = ks := by
  induction ks with
  | nil => rfl
  | cons k ks ih => rw [List.map_cons, instructions, operationInstructions, ih, List.singleton_append]

theorem hasStrength_of_merges {js ks : List Instruction} (hjs : ∀ j ∈ js, HasStrength j)
    (h : Merges js ks) : ∀ k ∈ ks, HasStrength k := by
  have hall := everywhere_foldl_pushReversed joinable_hasStrength (everywhere_nil _) hjs
  rw [h, everywhere_reverse] at hall
  rwa [Everywhere, instructions_map_instruction] at hall

theorem additive_named {read : Instruction → List β} (hread : Additive read) (g : Gate)
    {p : Scalar} (hp : (0 : Scalar).numLt p = true) :
    Additive fun k => if k.name = g.name ∧ k.args = [p] then read k else [] := by
  intro last next hlast hnext h
  have hsame : last.name = g.name ∧ last.args = [p] ↔ next.name = g.name ∧ next.args = [p] := by
    rw [name_eq_of_fuses h, args_eq_iff_of_fuses h hp]
  by_cases hlast' : last.name = g.name ∧ last.args = [p]
  · have hjoin : (last.join next).name = g.name ∧ (last.join next).args = [p] := hlast'
    dsimp only
    rw [if_pos hjoin, if_pos hlast', if_pos (hsame.1 hlast')]
    exact hread last next hlast hnext h
  · have hjoin : ¬ ((last.join next).name = g.name ∧ (last.join next).args = [p]) := hlast'
    dsimp only
    rw [if_neg hjoin, if_neg hlast', if_neg fun hnext' => hlast' (hsame.2 hnext')]
    rfl

theorem named_eq_nil {g : Gate} (hg : g.kind.isNoise = true) {p : Scalar}
    (hp : (0 : Scalar).numLt p = false) (read : Instruction → List β) {ks : List Instruction}
    (hks : ∀ k ∈ ks, HasStrength k) : named read g p ks = [] := by
  apply List.flatMap_eq_nil_iff.2
  intro k hk
  rw [if_neg]
  rintro ⟨hname, hargs⟩
  have hkind : k.kind.isNoise = true := by
    rw [Instruction.kind_of_gate? (Instruction.gate?_of_name hname), hg]
  obtain ⟨strength, hstrength, hpositive⟩ := (hks k hk).2 hkind
  obtain rfl : p = strength := List.singleton_inj.1 (hargs.symm.trans hstrength)
  rw [hp] at hpositive
  cases hpositive

/-- Merging keeps what channels show, at every strength. -/
theorem named_of_merges {read : Instruction → List β} (hread : Additive read) {g : Gate}
    (hg : g.kind.isNoise = true) (p : Scalar) {js ks : List Instruction}
    (hjs : ∀ j ∈ js, HasStrength j) (h : Merges js ks) :
    named read g p ks = named read g p js := by
  cases hp : (0 : Scalar).numLt p with
  | false =>
    rw [named_eq_nil hg hp read hjs, named_eq_nil hg hp read (hasStrength_of_merges hjs h)]
  | true =>
    have hshown := unrolled_foldl_pushReversed (additive_named hread g hp) (everywhere_nil _)
      fun j hj => (hjs j hj).1
    rw [h, List.reverse_reverse, unrolled_map_instruction] at hshown
    exact hshown

end Circuit

namespace NoiseContext

open Circuit

variable {β : Type}

/-! ## Copies -/

theorem isChecked_of_copied {p j : Instruction} (hp : p.IsChecked) (h : Copied p j) :
    j.IsChecked ∧ j.kind = p.kind := by
  cases h with
  | same => exact ⟨hp, rfl⟩
  | flipped x _ =>
    obtain ⟨g, hname, hfault⟩ := Instruction.isChecked_iff.1 hp
    exact ⟨Instruction.isChecked_iff.2 ⟨g, hname, hfault⟩, rfl⟩

theorem isChecked_of_copiedAs {i : Instruction} {js : List Instruction} (hi : i.IsChecked)
    (h : CopiedAs i js) : ∀ j ∈ js, j.IsChecked ∧ j.kind = i.kind := by
  cases h with
  | whole => exact List.forall_mem_singleton.2 ⟨hi, rfl⟩
  | pieces hkind hjs =>
    have hpieces : ∀ p ∈ piecesOf i, p.IsChecked ∧ p.kind = i.kind := by
      intro p hp
      obtain ⟨group, hgroup, rfl⟩ := List.mem_map.1 hp
      exact ⟨(Instruction.isPiece_of_mem_targetGroups hi hkind hgroup).checked, rfl⟩
    generalize piecesOf i = ps at hpieces hjs
    induction hjs with
    | nil => simp
    | cons hcopied _ ih =>
      rw [List.forall_mem_cons] at hpieces ⊢
      obtain ⟨hchecked, hsame⟩ := isChecked_of_copied hpieces.1.1 hcopied
      exact ⟨⟨hchecked, hsame.trans hpieces.1.2⟩, ih hpieces.2⟩

theorem isChecked_of_copies {is : List Instruction} {copies : List (List Instruction)}
    (his : ∀ i ∈ is, i.IsChecked ∧ i.kind.isNoise = false)
    (h : List.Forall₂ CopiedAs is copies) :
    ∀ j ∈ copies.flatten, j.IsChecked ∧ j.kind.isNoise = false := by
  induction h with
  | nil => simp
  | cons hcopied _ ih =>
    rw [List.forall_mem_cons] at his
    rw [List.flatten_cons, List.forall_mem_append]
    refine ⟨fun j hj => ?_, ih his.2⟩
    obtain ⟨hchecked, hkind⟩ := isChecked_of_copiedAs his.1.1 hcopied j hj
    exact ⟨hchecked, hkind ▸ his.1.2⟩

theorem named_copies (read : Instruction → List β) {g : Gate} (hg : g.kind.isNoise = true)
    (p : Scalar) {js : List Instruction} (hjs : ∀ j ∈ js, j.kind.isNoise = false) :
    named read g p js = [] := by
  apply List.flatMap_eq_nil_iff.2
  intro j hj
  rw [if_neg]
  rintro ⟨hname, -⟩
  have hkind := hjs j hj
  rw [Instruction.kind_of_gate? (Instruction.gate?_of_name hname), hg] at hkind
  cases hkind

/-! ## Written applications -/

theorem Application.IsSound.kind {a : Application} (h : a.IsSound) :
    a.written.kind.isNoise = true := by
  rw [Instruction.kind_of_gate? (Instruction.gate?_of_name rfl), h.noise]

theorem Application.IsSound.hasStrength {a : Application} (h : a.IsSound) :
    HasStrength a.written :=
  ⟨h.checked, fun _ => ⟨a.strength, rfl, h.positive⟩⟩

theorem Application.IsSound.isTick {a : Application} (h : a.IsSound) :
    a.written.isTick = false := by
  have hnoise := h.noise
  rw [Instruction.isTick, beq_eq_false_iff_ne]
  intro hname
  rw [Gate.name_injective hname] at hnoise
  cases hnoise

/-- A reading of instructions whose applications of a gate show a view of their qubits. -/
structure Reads (g : Gate) (read : Instruction → List β) (view : List Nat → List β) : Prop where
  additive : Additive read
  written : ∀ qubits args, read (.onQubits g qubits args) = view qubits

theorem named_written {g : Gate} {read : Instruction → List β} {view : List Nat → List β}
    (hread : Reads g read view) (p : Scalar) (as : List Application) :
    named read g p (as.map Application.written) = shown view g p as := by
  rw [named, shown, List.flatMap_map]
  apply List.flatMap_congr
  intro a _
  have hsame : a.written.name = g.name ∧ a.written.args = [p] ↔ a.gate = g ∧ a.strength = p := by
    refine and_congr ⟨Gate.name_injective, fun h => congrArg Gate.name h⟩ ?_
    exact List.singleton_inj
  by_cases hmatch : a.gate = g ∧ a.strength = p
  · rw [if_pos hmatch, if_pos (hsame.2 hmatch), Application.written, hmatch.1]
    exact hread.written a.qubits [a.strength]
  · rw [if_neg hmatch, if_neg fun h => hmatch (hsame.1 h)]

/-- What is written for a moment, merged, shows of every channel what is requested. -/
def ShowsRequests (ctx : NoiseContext) (is ks : List Instruction) : Prop :=
  ∀ {β : Type} {g : Gate} {read : Instruction → List β} {view : List Nat → List β}
    {whole : List Nat → Prop}, g.kind.isNoise = true → Reads g read view → Splits g view whole →
    ∀ p, (named read g p ks).Perm (shown view g p (ctx.requests is))

/-- Copies without error channels, followed by applications that show what is requested, show it
also when they are merged. -/
theorem showsRequests_of_merges {ctx : NoiseContext} {is copied ks : List Instruction}
    {as : List Application} (hcopied : ∀ j ∈ copied, j.IsChecked ∧ j.kind.isNoise = false)
    (hsound : ∀ a ∈ as, a.IsSound)
    (hshown : ∀ {β : Type} {g : Gate} {view : List Nat → List β} {whole : List Nat → Prop},
      Splits g view whole → ∀ p, (shown view g p as).Perm (shown view g p (ctx.requests is)))
    (hmerges : Merges (copied ++ as.map Application.written) ks) : ctx.ShowsRequests is ks := by
  intro β g read view whole hg hread hview p
  have hstrengths : ∀ j ∈ copied ++ as.map Application.written, HasStrength j := by
    rw [List.forall_mem_append, List.forall_mem_map]
    refine ⟨fun j hj => ⟨(hcopied j hj).1, ?_⟩, fun a ha => (hsound a ha).hasStrength⟩
    simp [(hcopied j hj).2]
  rw [named_of_merges hread.additive hg p hstrengths hmerges, named_append,
    named_copies read hg p fun j hj => (hcopied j hj).2, List.nil_append, named_written hread]
  exact hshown hview p

theorem writesMoments_showsRequests {ctx : NoiseContext} (hvalid : ctx.model.IsValid) :
    ctx.WritesMoments (fun i => i.IsChecked ∧ i.kind.isNoise = false) ctx.ShowsRequests := by
  intro is done out his h
  have hbare : ∀ i ∈ is, i.IsChecked ∧ i.kind.isNoise = false := fun i hi => (his i hi).1
  obtain ⟨copies, as, hcopies, ⟨hsound, hout⟩, hshown⟩ :=
    writes_of_moment hvalid (fun i hi => (hbare i hi).2) h
  have hcopied := isChecked_of_copies hbare hcopies
  refine ⟨copies.flatten ++ as.map Application.written, ?_, ?_, ?_⟩
  · rw [List.forall_mem_append, List.forall_mem_map]
    exact ⟨isTick_of_copies (fun i hi => (his i hi).2) hcopies, fun a ha => (hsound a ha).isTick⟩
  · rw [List.foldl_append, hout]
  · exact fun ks hmerges => showsRequests_of_merges hcopied hsound hshown hmerges

/-! ## Qubits and pairs -/

/-- Qubits two at a time, as a two-qubit channel takes them. -/
def neighbours : List Nat → List (List Nat)
  | [] => []
  | [a] => [[a]]
  | a :: b :: rest => [a, b] :: neighbours rest

/-- The qubits of each group of targets. -/
def groupQubits (i : Instruction) : List (List Nat) :=
  i.targetGroups.map fun group => group.filterMap Target.qubit?

theorem neighbours_append {qubits more : List Nat} (h : qubits.length % 2 = 0) :
    neighbours (qubits ++ more) = neighbours qubits ++ neighbours more := by
  induction qubits using neighbours.induct with
  | case1 => rfl
  | case2 a => simp at h
  | case3 a b rest ih =>
    have hrest : rest.length % 2 = 0 := by
      simp only [List.length_cons] at h
      omega
    rw [List.cons_append, List.cons_append, neighbours, ih hrest, neighbours, List.cons_append]

theorem map_pairs_qubits (qubits : List Nat) :
    (Target.pairs (qubits.map .qubit)).map (fun group => group.filterMap Target.qubit?) =
      neighbours qubits := by
  induction qubits using neighbours.induct with
  | case1 => rfl
  | case2 a => rfl
  | case3 a b rest ih =>
    rw [List.map_cons, List.map_cons, Target.pairs, List.map_cons, ih]
    rfl

theorem splits_neighbours {g : Gate} (hg : g.kind = .noise2) :
    Splits g neighbours fun qubits => qubits.length % 2 = 0 where
  applied := fun _ h => h (by rw [hg]; rfl)
  append := by
    intro qubits more hqubits hmore
    refine ⟨?_, neighbours_append hqubits⟩
    rw [List.length_append]
    omega

theorem reads_qubits (g : Gate) : Reads g Instruction.qubits id where
  additive := fun _ _ _ _ _ => List.filterMap_append
  written := by
    intro qubits args
    rw [Instruction.qubits, Instruction.onQubits, List.filterMap_map]
    exact List.filterMap_some

theorem reads_neighbours {g : Gate} (hg : g.kind = .noise2) : Reads g groupQubits neighbours where
  additive := by
    intro last next hlast hnext h
    rw [groupQubits, Instruction.targetGroups_join hlast hnext h, List.map_append]
    rfl
  written := by
    intro qubits args
    have hkind : (Instruction.onQubits g qubits args).kind.isPairwise = true := by
      rw [Instruction.kind_of_gate? (Instruction.gate?_of_name rfl), hg]
      rfl
    rw [groupQubits, Instruction.targetGroups_of_isPairwise hkind]
    exact map_pairs_qubits qubits

/-! ## Counting requests -/

/-- The number of entries of a table that name a channel, in whatever spelling, at a strength that
is positive. -/
def entriesNaming (g : Gate) (p : Scalar) (entries : List (String × Scalar)) : Nat :=
  entries.countP fun entry =>
    Gate.ofName? entry.1 = some g ∧ entry.2 = p ∧ (0 : Scalar).numLt p = true

/-- The number of entries that name a channel at a strength in the rule for a piece; there are
none for a piece with an immune qubit or without a rule. -/
def entriesFor (ctx : NoiseContext) (g : Gate) (p : Scalar) (piece : Instruction) : Nat :=
  if piece.qubits.any fun q => ctx.immune.contains q then 0
  else
    match ctx.model.ruleFor piece with
    | .rule rule => entriesNaming g p rule.after.entries
    | .missing | .exempt => 0

/-- The number of entries that name a channel at a strength in the noise of every moment. -/
def tickEntries (ctx : NoiseContext) (g : Gate) (p : Scalar) : Nat :=
  match ctx.model.tickNoise with
  | none => 0
  | some rule => entriesNaming g p rule.after.entries

/-- Whether depolarization of a strength is the channel at the strength in question. -/
def isDepolarization (g : Gate) (p strength : Scalar) : Bool :=
  g = .depolarize1 && p = strength && (0 : Scalar).numLt strength

theorem shown_requested (view : List Nat → List β) (g : Gate) (p : Scalar)
    (entry : String × Scalar) (qubits : List Nat) :
    shown view g p
        (if (0 : Scalar).numLt entry.2 then (application? entry.1 entry.2 qubits).toList else []) =
      if Gate.ofName? entry.1 = some g ∧ entry.2 = p ∧ (0 : Scalar).numLt p = true
      then view qubits else [] := by
  have hshown := shown_application? view g p ⟨entry.1, entry.2⟩ qubits
  unfold entryShown at hshown
  by_cases hpositive : (0 : Scalar).numLt entry.2 = true
  · rw [if_pos hpositive, hshown]
    refine if_congr (and_congr_right fun _ => ?_) rfl rfl
    exact ⟨fun h => ⟨h, h ▸ hpositive⟩, fun h => h.1⟩
  · rw [if_neg hpositive, if_neg]
    · rfl
    · rintro ⟨-, rfl, hp⟩
      exact hpositive hp

variable [BEq β]

theorem count_shown_requestedBy (view : List Nat → List β) (g : Gate) (p : Scalar)
    (entries : List (String × Scalar)) (qubits : List Nat) (x : β) :
    (shown view g p (requestedBy entries qubits)).count x =
      entriesNaming g p entries * (view qubits).count x := by
  induction entries with
  | nil => simp [requestedBy, shown, entriesNaming]
  | cons entry entries ih =>
    have hcons : requestedBy (entry :: entries) qubits =
        (if (0 : Scalar).numLt entry.2 then (application? entry.1 entry.2 qubits).toList else []) ++
          requestedBy entries qubits := rfl
    have hnaming : entriesNaming g p (entry :: entries) = entriesNaming g p entries +
        if Gate.ofName? entry.1 = some g ∧ entry.2 = p ∧ (0 : Scalar).numLt p = true
        then 1 else 0 := by
      simp [entriesNaming, List.countP_cons]
    rw [hcons, shown_append, List.count_append, ih, shown_requested, hnaming, Nat.add_mul,
      Nat.add_comm]
    split <;> simp

theorem count_shown_requestedFor (ctx : NoiseContext) (view : List Nat → List β) (g : Gate)
    (p : Scalar) (piece : Instruction) (x : β) :
    (shown view g p (ctx.requestedFor piece)).count x =
      ctx.entriesFor g p piece * (view piece.qubits).count x := by
  unfold requestedFor entriesFor
  split
  · simp [shown]
  · cases ctx.model.ruleFor piece with
    | rule rule => exact count_shown_requestedBy view g p rule.after.entries piece.qubits x
    | missing => simp [shown]
    | exempt => simp [shown]

theorem count_shown_requestedTick (ctx : NoiseContext) {view : List Nat → List β}
    (hnil : view [] = []) (g : Gate) (p : Scalar) (x : β) :
    (shown view g p ctx.requestedTick).count x =
      ctx.tickEntries g p * (view (ctx.noisyQubits fun _ => true)).count x := by
  unfold requestedTick tickEntries
  cases ctx.model.tickNoise with
  | none => simp [shown]
  | some rule =>
    dsimp only
    split
    · next hempty =>
      rw [List.isEmpty_iff.1 hempty, hnil]
      simp [shown]
    · exact count_shown_requestedBy view g p rule.after.entries _ x

theorem count_shown_requestedIdle {view : List Nat → List β} (hnil : view [] = []) (g : Gate)
    (p strength : Scalar) (qubits : List Nat) (x : β) :
    (shown view g p (requestedIdle strength qubits)).count x =
      if isDepolarization g p strength then (view qubits).count x else 0 := by
  unfold requestedIdle isDepolarization
  by_cases hempty : qubits = []
  · simp [hempty, shown, hnil]
  · cases (0 : Scalar).numLt strength with
    | false => simp [shown]
    | true =>
      have hsome : (!qubits.isEmpty) = true := by simpa using hempty
      by_cases hmatch : Gate.depolarize1 = g ∧ strength = p
      · obtain ⟨rfl, rfl⟩ := hmatch
        simp [shown, hsome]
      · have hother : ¬ (g = .depolarize1 ∧ p = strength) :=
          fun h => hmatch ⟨h.1.symm, h.2.symm⟩
        simp [shown, hsome, hmatch, hother]

/-- How often a moment calls for a channel at a strength to show something of its qubits: for each
entry in the rule of a piece, for idling and waiting qubits, and for each entry in the noise of
every moment. -/
theorem count_shown_requests (ctx : NoiseContext) {view : List Nat → List β}
    (hnil : view [] = []) {is : List Instruction} (his : hasOperation is = true) (g : Gate)
    (p : Scalar) (x : β) :
    (shown view g p (ctx.requests is)).count x =
      ((operationPieces is).map fun piece =>
          ctx.entriesFor g p piece * (view piece.qubits).count x).sum +
        ((if isDepolarization g p ctx.model.idleDepolarization then
            (view (ctx.noisyQubits fun q => !touches (operationPieces is) q)).count x else 0) +
          ((if isDepolarization g p ctx.model.waitingDepolarization then
              (view (if (collapsing (operationPieces is)).any fun piece => !piece.qubits.isEmpty
                then ctx.noisyQubits fun q => !touches (collapsing (operationPieces is)) q
                else [])).count x else 0) +
            ctx.tickEntries g p * (view (ctx.noisyQubits fun _ => true)).count x)) := by
  have hpieces : ∀ pieces : List Instruction,
      (shown view g p (pieces.flatMap ctx.requestedFor)).count x =
        (pieces.map fun piece => ctx.entriesFor g p piece * (view piece.qubits).count x).sum := by
    intro pieces
    induction pieces with
    | nil => rfl
    | cons piece pieces ih =>
      rw [List.flatMap_cons, shown_append, List.count_append, ih, count_shown_requestedFor,
        List.map_cons, List.sum_cons]
  rw [requests, if_pos his, shown_append, List.count_append, hpieces, requestedBackground,
    shown_append, List.count_append, shown_append, List.count_append,
    count_shown_requestedIdle hnil, count_shown_requestedIdle hnil, count_shown_requestedTick _ hnil]

omit [BEq β]

/-! ## Accounts of moments -/

/-- Whether a qubit belongs to the system and is not immune. -/
def isNoisy (ctx : NoiseContext) (q : Nat) : Bool :=
  ctx.system.contains q && !ctx.immune.contains q

theorem count_noisyQubits (ctx : NoiseContext) (keep : Nat → Bool) (q : Nat) :
    (ctx.noisyQubits keep).count q = if ctx.isNoisy q && keep q then 1 else 0 := by
  have hnodup : (ctx.noisyQubits keep).Nodup := (OrderedMap.nodup_keys ctx.system).filter _
  rw [hnodup.count]
  refine if_congr ?_ rfl rfl
  rw [noisyQubits, List.mem_filter, isNoisy, Bool.and_assoc, Bool.and_eq_true,
    Bool.and_eq_true (OrderedMap.contains ctx.system q), OrderedMap.contains_iff_mem_keys,
    Bool.and_eq_true]
  rfl

/-- How often a moment calls for a channel at a strength to name a qubit, where `weight` tells how
much a piece counts. -/
def due (ctx : NoiseContext) (weight : Instruction → Nat) (is : List Instruction) (g : Gate)
    (p : Scalar) (q : Nat) : Nat :=
  let pieces := operationPieces is
  let idles := ctx.isNoisy q && !touches pieces q
  let waits := ((collapsing pieces).any fun piece => !piece.qubits.isEmpty) &&
    (ctx.isNoisy q && !touches (collapsing pieces) q)
  (pieces.map fun piece => weight piece * piece.qubits.count q).sum +
    (if isDepolarization g p ctx.model.idleDepolarization && idles then 1 else 0) +
    (if isDepolarization g p ctx.model.waitingDepolarization && waits then 1 else 0) +
    if ctx.isNoisy q then ctx.tickEntries g p else 0

/-- The error channels among the instructions written for a moment are accounted for. -/
structure Accounts (ctx : NoiseContext) (is ks : List Instruction) : Prop where
  /-- Channels name qubits as often as the moment calls for. -/
  qubits : ∀ g p q, g.kind.isNoise = true →
    (named Instruction.qubits g p ks).count q = ctx.due (ctx.entriesFor g p) is g p q
  /-- Two-qubit channels have pairs as often as pieces and the noise of every moment do. -/
  pairs : ∀ g p pair, g.kind = .noise2 →
    (named groupQubits g p ks).count pair =
      ((operationPieces is).map fun piece =>
          ctx.entriesFor g p piece * (neighbours piece.qubits).count pair).sum +
        ctx.tickEntries g p * (neighbours (ctx.noisyQubits fun _ => true)).count pair
  /-- Every pair comes from one piece or from the noise of every moment. -/
  origin : ∀ g p, g.kind = .noise2 → ∀ pair ∈ named groupQubits g p ks,
    (∃ piece ∈ operationPieces is,
      0 < ctx.entriesFor g p piece ∧ pair ∈ neighbours piece.qubits) ∨
    (0 < ctx.tickEntries g p ∧ pair ∈ neighbours (ctx.noisyQubits fun _ => true))

theorem ShowsRequests.count_qubits {ctx : NoiseContext} {is ks : List Instruction}
    (h : ctx.ShowsRequests is ks) (his : hasOperation is = true) {g : Gate}
    (hg : g.kind.isNoise = true) (p : Scalar) (q : Nat) :
    (named Instruction.qubits g p ks).count q = ctx.due (ctx.entriesFor g p) is g p q := by
  have hboth : ∀ a b : Bool, (if a then (if b then 1 else 0) else 0) = if a && b then 1 else 0 := by
    decide
  have hwaiting : ∀ (any : Bool) (keep : Nat → Bool),
      (if any then ctx.noisyQubits keep else []).count q =
        if any && (ctx.isNoisy q && keep q) then 1 else 0 := by
    intro any keep
    cases any with
    | false => rfl
    | true => simpa using count_noisyQubits ctx keep q
  have htick : ∀ (n : Nat) (b : Bool), (n * if b then 1 else 0) = if b then n else 0 := by
    intro n b
    cases b <;> simp
  rw [(h hg (reads_qubits g) (splits_qubits g) p).count_eq q, count_shown_requests ctx rfl his]
  simp only [id_eq, count_noisyQubits, hwaiting, hboth, htick, due, Nat.add_assoc, Bool.and_true]

theorem ShowsRequests.count_pairs {ctx : NoiseContext} {is ks : List Instruction}
    (h : ctx.ShowsRequests is ks) (his : hasOperation is = true) {g : Gate}
    (hg : g.kind = .noise2) (p : Scalar) (pair : List Nat) :
    (named groupQubits g p ks).count pair =
      ((operationPieces is).map fun piece =>
          ctx.entriesFor g p piece * (neighbours piece.qubits).count pair).sum +
        ctx.tickEntries g p * (neighbours (ctx.noisyQubits fun _ => true)).count pair := by
  have hnoise : g.kind.isNoise = true := by
    rw [hg]
    rfl
  have hcount := (h hnoise (reads_neighbours hg) (splits_neighbours hg) p).count_eq pair
  have hother : ∀ strength, isDepolarization g p strength = false := by
    intro strength
    have hne : g ≠ .depolarize1 := by
      rintro rfl
      cases hg
    simp [isDepolarization, hne]
  rw [hcount, count_shown_requests ctx rfl his, hother, hother]
  simp

theorem ShowsRequests.accounts {ctx : NoiseContext} {is ks : List Instruction}
    (h : ctx.ShowsRequests is ks) (his : hasOperation is = true) : ctx.Accounts is ks where
  qubits := fun _ p q hg => h.count_qubits his hg p q
  pairs := fun _ p pair hg => h.count_pairs his hg p pair
  origin := by
    intro g p hg pair hpair
    by_contra hnone
    rw [not_or, not_exists] at hnone
    have hzero : ∀ (n : Nat) (qubits : List Nat), ¬ (0 < n ∧ pair ∈ neighbours qubits) →
        n * (neighbours qubits).count pair = 0 := by
      intro n qubits hnot
      rw [Nat.mul_eq_zero, List.count_eq_zero]
      by_contra hboth
      rw [not_or, not_not] at hboth
      exact hnot ⟨Nat.pos_of_ne_zero hboth.1, hboth.2⟩
    have hcount : (named groupQubits g p ks).count pair = 0 := by
      rw [h.count_pairs his hg p pair, hzero _ _ hnone.2, Nat.add_zero,
        List.sum_eq_zero_iff_forall_eq_nat, List.forall_mem_map]
      exact fun piece hpiece => hzero _ _ fun hpositive => hnone.1 piece ⟨hpiece, hpositive⟩
    exact absurd hpair (List.count_eq_zero.1 hcount)

end NoiseContext

/-- The moments of a circuit with noise are those of the circuit, each with the error channels that
it calls for; a moment for which nothing is written is left out. -/
theorem noisyCircuit_accounts {c out : Circuit} {model : NoiseModel} {immune : OrderedSet Nat}
    {system : Option (OrderedSet Nat)} (hc : c.Built)
    (hnoise : Circuit.Everywhere (fun i => i.kind.isNoise = false) c)
    (h : noisyCircuit c model immune system = .ok out) :
    ∃ outs, List.Forall₂
        (fun is ks => NoiseContext.hasOperation is = true →
          NoiseContext.Accounts ⟨model, immune, system.getD (Circuit.qubits c)⟩ is ks)
        (Circuit.moments c) outs ∧ Circuit.moments out = Circuit.full outs := by
  obtain ⟨_, hvalidate, hinject⟩ := bind_eq_ok.1 h
  have hvalid := NoiseModel.isValid_of_validate (lift_eq_ok.1 hvalidate)
  have hbare : Circuit.Everywhere (fun i => i.IsChecked ∧ i.kind.isNoise = false) c :=
    fun i hi => ⟨hc.checked i hi, hnoise i hi⟩
  have hmoments : NoiseContext.WritesMoments ⟨model, immune, system.getD (Circuit.qubits c)⟩ _ _ :=
    NoiseContext.writesMoments_showsRequests hvalid
  obtain ⟨outs, houts, hout⟩ := NoiseContext.moments_inject hmoments hbare hc.settled hinject
  exact ⟨outs, houts.imp fun _ _ hshows his => hshows.accounts his, hout⟩

/-- Rounds of interactions and of a measurement while another qubit waits. -/
def waitingRounds : Circuit :=
  Circuit.pushRepeat (List.foldl Circuit.push [] [.onQubits (.reset .z) [0, 1, 2, 3] [], .tick]) 2
    (List.foldl Circuit.push []
      [.onQubits (.controlled .z .x) [0, 1, 2, 3] [], .tick, .onQubits (.measure .z) [1, 3] []])

theorem noisyCircuit_accounts_waitingRounds :
    waitingRounds.Built ∧ Circuit.Everywhere (fun i => i.kind.isNoise = false) waitingRounds ∧
      ∃ out, noisyCircuit waitingRounds (NoiseModel.superconducting (1 / 100))
          (OrderedSet.ofList [3]) none = .ok out ∧
        ∃ outs, List.Forall₂
            (fun is ks => NoiseContext.hasOperation is = true →
              NoiseContext.Accounts
                ⟨NoiseModel.superconducting (1 / 100), OrderedSet.ofList [3],
                  Circuit.qubits waitingRounds⟩ is ks)
            (Circuit.moments waitingRounds) outs ∧ Circuit.moments out = Circuit.full outs := by
  have hbuilt : waitingRounds.Built :=
    .pushRepeat (.foldl_push .nil (by decide +kernel)) (.foldl_push .nil (by decide +kernel)) 2
  have hnoise : Circuit.Everywhere (fun i => i.kind.isNoise = false) waitingRounds := by
    decide +kernel
  have hok : (noisyCircuit waitingRounds (NoiseModel.superconducting (1 / 100))
      (OrderedSet.ofList [3]) none).isOk = true := by
    decide +kernel
  refine ⟨hbuilt, hnoise, ?_⟩
  cases hout : noisyCircuit waitingRounds (NoiseModel.superconducting (1 / 100))
      (OrderedSet.ofList [3]) none with
  | error e => simp [hout, Except.isOk, Except.toBool] at hok
  | ok out => exact ⟨out, rfl, noisyCircuit_accounts hbuilt hnoise hout⟩

/-- A model whose rule for a gate lists one channel in two spellings. -/
def twoSpellings : NoiseModel :=
  { gateRules := OrderedMap.ofList
      [("H", ⟨OrderedMap.ofList [("Z_ERROR", 1 / 4), ("z_error", 1 / 4)], 0⟩)] }

/-- A channel that a table lists in two spellings is applied twice, so that it does not suffice to
count pieces whose rule has the channel. -/
theorem noisyCircuit_twoSpellings :
    ¬ ∀ (c out : Circuit) (model : NoiseModel) (immune : OrderedSet Nat)
        (system : Option (OrderedSet Nat)), c.Built →
      Circuit.Everywhere (fun i => i.kind.isNoise = false) c →
      noisyCircuit c model immune system = .ok out →
      ∃ outs, List.Forall₂
          (fun is ks => NoiseContext.hasOperation is = true → ∀ g p q, g.kind.isNoise = true →
            (Circuit.named Instruction.qubits g p ks).count q =
              let ctx : NoiseContext := ⟨model, immune, system.getD (Circuit.qubits c)⟩
              ctx.due (fun piece => if 0 < ctx.entriesFor g p piece then 1 else 0) is g p q)
          (Circuit.moments c) outs ∧ Circuit.moments out = Circuit.full outs := by
  intro hall
  let gate : Instruction := .onQubits (.rotate (Rotation.toZ .x)) [0] []
  let channel : Instruction := .onQubits (.pauliError .z) [0, 0] [1 / 4]
  have hchecked : ∀ i ∈ [gate], i.IsChecked := by decide +kernel
  have hbuilt : Circuit.Built [.instruction gate] := .foldl_push .nil hchecked
  have hout : ((noisyCircuit [.instruction gate] twoSpellings OrderedMap.empty none).toOption.any
      fun out => decide (Circuit.moments out = [[gate, channel]])) = true := by
    decide +kernel
  cases hnoisy : noisyCircuit [.instruction gate] twoSpellings OrderedMap.empty none with
  | error e => simp [hnoisy, Except.toOption] at hout
  | ok out =>
    simp only [hnoisy, Except.toOption, Option.any_some, decide_eq_true_eq] at hout
    obtain ⟨outs, houts, hmoments⟩ := hall _ _ _ _ _ hbuilt (by decide +kernel) hnoisy
    have hcircuit : Circuit.moments [.instruction gate] = [[gate]] := by decide +kernel
    rw [hcircuit] at houts
    obtain ⟨ks, rest, hks, hrest, rfl⟩ := List.forall₂_cons_left_iff.1 houts
    obtain rfl := List.forall₂_nil_left_iff.1 hrest
    have hwritten : ks = [gate, channel] := by
      rw [hout] at hmoments
      cases ks with
      | nil => cases hmoments
      | cons k ks => exact (List.singleton_inj.1 hmoments).symm
    subst hwritten
    have hcount := hks (by decide +kernel) (.pauliError .z) (1 / 4) 0 rfl
    revert hcount
    decide +kernel

end StabCircuit
