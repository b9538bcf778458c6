import Mathlib.Data.Sym.Sym2
import StabCircuit.Proofs.Circuit.Parsed
import StabCircuit.Proofs.Layer.Readings
import StabCircuit.Proofs.Layer.Written

/-!
# The order of operations on a qubit

A circuit is expanded into elementary operations, one a qubit, pair or product.
Splitting it into layers and writing these gathers operations of one kind and
sorts them, yet on every single qubit they keep their order: what is gathered or
sorted touches different qubits.  The one exception is a measurement with reset
that names a qubit twice, which is split into all its measurements and then all
its resets.
-/

namespace StabCircuit

/-- An operation on a qubit, a pair or a product.  The two sides of an interaction are not ordered,
so neither its orientation nor its name matters. -/
inductive Elementary where
  /-- A rotation of a qubit, not the identity. -/
  | rotate (rotation : Rotation) (qubit : Nat)
  /-- A controlled Pauli. -/
  | interact (sides : Sym2 (Nat × Basis))
  /-- A controlled Pauli, then a swap. -/
  | interactSwap (sides : Sym2 (Nat × Basis))
  /-- A swap. -/
  | swap (qubits : Sym2 Nat)
  /-- A swap with a phase. -/
  | iswap (qubits : Sym2 Nat)
  /-- A reset of a qubit. -/
  | reset (qubit : Nat) (basis : Basis)
  /-- A measurement of a qubit, with the numbers of its arguments. -/
  | measure (qubit : Nat) (basis : Basis) (numbers : List Int)
  /-- A measurement of a product, with the numbers of its arguments. -/
  | product (factors : List (Nat × Basis)) (numbers : List Int)
  /-- A piece that is carried as it is: classically controlled, an error channel, or of a gate that
  has no layer. -/
  | carried (gate : Gate) (numbers : List Int) (targets : List Target)
deriving DecidableEq

namespace Elementary

/-- The operation touches a qubit. -/
def Touches (q : Nat) : Elementary → Prop
  | rotate _ p | reset p _ | measure p _ _ => q = p
  | interact sides | interactSwap sides => q ∈ sides.map Prod.fst
  | swap qubits | iswap qubits => q ∈ qubits
  | product factors _ => q ∈ factors.map Prod.fst
  | carried _ _ targets => q ∈ targets.filterMap Target.qubit?

instance (q : Nat) : DecidablePred (Touches q)
  | rotate _ p | reset p _ | measure p _ _ => inferInstanceAs (Decidable (q = p))
  | interact sides | interactSwap sides => inferInstanceAs (Decidable (q ∈ sides.map Prod.fst))
  | swap qubits | iswap qubits => inferInstanceAs (Decidable (q ∈ qubits))
  | product factors _ => inferInstanceAs (Decidable (q ∈ factors.map Prod.fst))
  | carried _ _ targets => inferInstanceAs (Decidable (q ∈ targets.filterMap Target.qubit?))

/-- The operations of a list that touch a qubit, in their order. -/
def on (q : Nat) (es : List Elementary) : List Elementary :=
  es.filter fun e => decide (e.Touches q)

/-- The operation of a two-qubit gate, where it has one of its own. -/
def ofPair? (g : Gate) (a b : Nat) : Option Elementary :=
  match g with
  | .controlled P Q => some (interact s((a, P), (b, Q)))
  | .swap => some (swap s(a, b))
  | .iswap => some (iswap s(a, b))
  | .czSwap => some (interactSwap s((a, .z), (b, .z)))
  | .controlledSwap => some (interactSwap s((a, .z), (b, .x)))
  | .swapControlled => some (interactSwap s((b, .z), (a, .x)))
  | _ => none

/-- The operation of a piece on its qubits, carried as it is unless it has one of its own. -/
def ofQubits (g : Gate) (numbers : List Int) (group : List Target) : List Nat → Elementary
  | [a, b] => (ofPair? g a b).getD (carried g numbers group)
  | _ => carried g numbers group

/-- The operations of a piece of an instruction in target order.  Annotations and identity gates
have none, and a measurement with reset is a measurement and then a reset. -/
def ofPiece (g : Gate) (numbers : List Int) (group : List Target) : List Elementary :=
  let qubits := group.filterMap Target.qubit?
  if g.kind.isMetadata then []
  else if group.any Target.isClassical then [carried g numbers group]
  else match g with
    | .rotate r => if r.isIdentity then [] else qubits.map (rotate r)
    | .reset b => qubits.map fun q => reset q b
    | .measure b => qubits.map fun q => measure q b numbers
    | .measureReset b => qubits.flatMap fun q => [measure q b numbers, reset q b]
    | .measureProduct => [product (LayerCircuit.factorsOf group) numbers]
    | g => [ofQubits g numbers group qubits]

/-! ## Operations that touch different qubits -/

theorem on_append (q : Nat) (xs ys : List Elementary) : on q (xs ++ ys) = on q xs ++ on q ys :=
  List.filter_append _ _

/-- At most one of the operations touches any given qubit. -/
def Scattered (es : List Elementary) : Prop := ∀ q, (on q es).length ≤ 1

theorem Scattered.of_length_le {es : List Elementary} (h : es.length ≤ 1) : Scattered es := by
  intro q
  exact (List.length_filter_le _ es).trans h

/-- Rearranging operations that touch different qubits shows on no qubit. -/
theorem Scattered.on_eq_of_perm {xs ys : List Elementary} (h : Scattered xs) (hperm : xs.Perm ys)
    (q : Nat) : on q xs = on q ys := by
  have hon : (on q xs).Perm (on q ys) := hperm.filter _
  have hle := h q
  match hxs : on q xs with
  | [] =>
    rw [hxs] at hon
    exact hon.nil_eq
  | [e] =>
    rw [hxs] at hon
    exact (List.perm_singleton.1 hon.symm).symm
  | _ :: _ :: _ => simp [hxs] at hle

theorem scattered_congr {xs ys : List Elementary} (hperm : xs.Perm ys) :
    Scattered xs ↔ Scattered ys := by
  apply forall_congr'
  intro q
  rw [on, on, (hperm.filter _).length_eq]

theorem scattered_append_iff {xs ys : List Elementary}
    (hapart : ∀ q, ∀ x ∈ xs, ∀ y ∈ ys, x.Touches q → ¬ y.Touches q) :
    Scattered (xs ++ ys) ↔ Scattered xs ∧ Scattered ys := by
  have hone : ∀ q, on q xs = [] ∨ on q ys = [] := by
    intro q
    by_contra hboth
    simp only [not_or, on, List.filter_eq_nil_iff, decide_eq_true_eq, not_forall, not_not] at hboth
    obtain ⟨⟨x, hx, hxq⟩, ⟨y, hy, hyq⟩⟩ := hboth
    exact hapart q x hx y hy hxq hyq
  simp only [Scattered, ← forall_and, on_append, List.length_append]
  apply forall_congr'
  intro q
  rcases hone q with h | h <;> simp [h]

theorem touches_ofPair? {g : Gate} {a b : Nat} {e : Elementary} (he : ofPair? g a b = some e)
    (q : Nat) : e.Touches q ↔ q = a ∨ q = b := by
  cases g <;> simp only [ofPair?, reduceCtorEq] at he <;> cases he <;>
    simp [Touches, or_comm]

theorem mem_of_touches_ofQubits {g : Gate} {numbers : List Int} {group : List Target} {q : Nat}
    (hq : (ofQubits g numbers group (group.filterMap Target.qubit?)).Touches q) :
    q ∈ group.filterMap Target.qubit? := by
  unfold ofQubits at hq
  split at hq
  · next a b hqubits =>
    cases hpair : ofPair? g a b with
    | none =>
      rw [hpair] at hq
      exact hq
    | some e =>
      rw [hpair, Option.getD_some, touches_ofPair? hpair] at hq
      simpa [hqubits] using hq
  · exact hq

/-- An operation of a piece touches qubits of the piece only. -/
theorem mem_of_touches {g : Gate} {numbers : List Int} {group : List Target} {e : Elementary}
    (he : e ∈ ofPiece g numbers group) {q : Nat} (hq : e.Touches q) :
    q ∈ group.filterMap Target.qubit? := by
  simp only [ofPiece] at he
  split at he
  · simp at he
  split at he
  · obtain rfl := List.mem_singleton.1 he
    exact hq
  split at he
  · split at he
    · simp at he
    · obtain ⟨p, hp, rfl⟩ := List.mem_map.1 he
      exact (show q = p from hq) ▸ hp
  · obtain ⟨p, hp, rfl⟩ := List.mem_map.1 he
    exact (show q = p from hq) ▸ hp
  · obtain ⟨p, hp, rfl⟩ := List.mem_map.1 he
    exact (show q = p from hq) ▸ hp
  · obtain ⟨p, hp, he⟩ := List.mem_flatMap.1 he
    rcases List.mem_pair.1 he with rfl | rfl
    · exact (show q = p from hq) ▸ hp
    · exact (show q = p from hq) ▸ hp
  · obtain rfl := List.mem_singleton.1 he
    exact (Layer.factorsOf_sublist group).subset hq
  · obtain rfl := List.mem_singleton.1 he
    exact mem_of_touches_ofQubits hq

end Elementary

open Elementary

/-- The elementary operations of a circuit that touch a qubit, repeat blocks unrolled. -/
def Circuit.localOperations (q : Nat) (c : Circuit) : List Elementary :=
  on q (Circuit.unrolled (Instruction.shown ofPiece) c)

/-- Circuits and layers are read as elementary operations; readings count as the same when they
agree on every qubit. -/
def localReading : Reading Elementary where
  instruction := Instruction.shown ofPiece
  plain := Layer.shown ofPiece
  Same xs ys := ∀ q, on q xs = on q ys

theorem congruent_localReading : localReading.Congruent where
  refl _ _ := rfl
  symm h q := (h q).symm
  trans h h' q := (h q).trans (h' q)
  append h h' q := by
    rw [on_append, on_append, h q, h' q]

namespace Layer

/-! ## Layers that touch different qubits -/

theorem mem_of_touches_shownPair {g : Gate} {p : Nat × Nat} {e : Elementary}
    (he : e ∈ shownPair ofPiece g p) {q : Nat} (hq : e.Touches q) : q ∈ [p.1, p.2] := by
  simpa [Target.qubit?] using mem_of_touches he hq

theorem mem_of_touches_shownInteractSwap {i : Interaction} {e : Elementary}
    (he : e ∈ shownInteractSwap ofPiece i) {q : Nat} (hq : e.Touches q) : q ∈ [i.a, i.b] := by
  unfold shownInteractSwap at he
  split at he
  · exact (operands_perm i).subset (mem_of_touches_shownPair he hq)
  · rcases List.mem_append.1 he with he | he
    · exact (operands_perm i).subset (mem_of_touches_shownPair he hq)
    · exact (sortedPair_perm i.a i.b).subset (mem_of_touches_shownPair he hq)

theorem mem_slots_of_touches {l : Layer} (hl : l.isRearranged = true) {e : Elementary}
    (he : e ∈ shown ofPiece l) {q : Nat} (hq : e.Touches q) : q ∈ l.slots := by
  cases l with
  | rotation rotations =>
    obtain ⟨entry, hentry, he⟩ := List.mem_flatMap.1 he
    have hqubit : q = entry.1 := by simpa [Target.qubit?] using mem_of_touches he hq
    rw [hqubit]
    exact List.mem_map_of_mem (List.mem_of_mem_filter hentry)
  | interact interactions =>
    obtain ⟨i, hi, he⟩ := List.mem_flatMap.1 he
    exact List.mem_flatMap.2
      ⟨i, hi, (operands_perm i).subset (mem_of_touches_shownPair he hq)⟩
  | swap pairs =>
    obtain ⟨p, hp, he⟩ := List.mem_flatMap.1 he
    exact List.mem_flatMap.2 ⟨p, hp, mem_of_touches_shownPair he hq⟩
  | iswap pairs =>
    obtain ⟨p, hp, he⟩ := List.mem_flatMap.1 he
    exact List.mem_flatMap.2 ⟨p, hp, mem_of_touches_shownPair he hq⟩
  | interactSwap interactions =>
    obtain ⟨i, hi, he⟩ := List.mem_flatMap.1 he
    exact List.mem_flatMap.2 ⟨i, hi, mem_of_touches_shownInteractSwap he hq⟩
  | _ => simp [isRearranged] at hl

/-- The operations of a layer that may be rearranged touch different qubits. -/
def IsScattered (l : Layer) : Prop := l.isRearranged = true → Scattered (shown ofPiece l)

theorem absorptive_isScattered : Absorptive IsScattered where
  absorb l next joined h := by
    obtain ⟨habsorbed, hapart⟩ := absorbed_of_absorb? h
    obtain ⟨hl, hnext⟩ := habsorbed.isRearranged
    simp only [IsScattered, hl, hnext, ← imp_and]
    apply imp_congr_right
    intro hjoined
    rw [scattered_congr (shown_perm_of_absorbed ofPiece habsorbed hapart)]
    apply scattered_append_iff
    intro q x hx y hy hxq hyq
    exact hapart q (mem_slots_of_touches (hl.trans hjoined) hx hxq)
      (mem_slots_of_touches (hnext.trans hjoined) hy hyq)

/-- Carried instructions are checked, and what may be rearranged touches different qubits. -/
def IsOrdered (l : Layer) : Prop := Carries Instruction.IsChecked l ∧ l.IsScattered

theorem absorptive_isOrdered : Absorptive IsOrdered :=
  (stable_carries _).toAbsorptive.and absorptive_isScattered

end Layer

namespace LayerCircuit

open Layer Instruction

variable {i : Instruction}

/-! ## Layers of an instruction -/

theorem ofPiece_pair {g : Gate} (hkind : g.kind = .clifford2) {s t : Target} {a b : Nat}
    (hs : s.qubit? = some a) (ht : t.qubit? = some b) (numbers : List Int) :
    ofPiece g numbers [s, t] = [(ofPair? g a b).getD (carried g numbers [s, t])] := by
  have hs' := isClassical_of_qubit? hs
  have ht' := isClassical_of_qubit? ht
  cases g <;> simp [Gate.kind] at hkind <;>
    simp [ofPiece, Gate.kind, GateKind.isMetadata, hs, ht, hs', ht', ofQubits]

/-- The sides of an interaction, not ordered. -/
def sidesOf (i : Interaction) : Sym2 (Nat × Basis) := s((i.a, i.basisA), (i.b, i.basisB))

theorem sidesOf_make (a b : Nat) (P Q : Basis) :
    sidesOf (.make a P b Q) = s((a, P), (b, Q)) := by
  unfold Interaction.make
  split
  · rfl
  · exact Sym2.eq_swap

theorem mk_sortedPair (a b : Nat) : s((sortedPair a b).1, (sortedPair a b).2) = s(a, b) := by
  rcases Nat.le_total a b with h | h
  · simp [sortedPair, h]
  · simp [sortedPair, h]

theorem mk_sortedSides (a b : Nat) (P : Basis) :
    s(((sortedPair a b).1, P), ((sortedPair a b).2, P)) = s((a, P), (b, P)) :=
  congrArg (Sym2.map fun q => (q, P)) (mk_sortedPair a b)

theorem shownPair_of_ofPair? {g : Gate} (hkind : g.kind = .clifford2) {p : Nat × Nat}
    {e : Elementary} (h : ofPair? g p.1 p.2 = some e) : shownPair ofPiece g p = [e] := by
  rw [shownPair, ofPiece_pair hkind rfl rfl, h, Option.getD_some]

theorem shownPair_interaction (i : Interaction) :
    shownPair ofPiece i.gate i.operands = [interact (sidesOf i)] := by
  apply shownPair_of_ofPair? (kind_interaction_gate i)
  obtain ⟨a, b, P, Q⟩ := i
  cases P <;> cases Q <;>
    simp [Interaction.gate, Interaction.operands, Interaction.pair, ofPair?, sidesOf,
      mk_sortedSides, Sym2.eq_swap]

theorem shownInteractSwap_fused {i : Interaction} {g : Gate} (h : fusedSwap? i = some g) :
    shownInteractSwap ofPiece i = [interactSwap (sidesOf i)] := by
  rw [shownInteractSwap_of_some h]
  apply shownPair_of_ofPair? (kind_fusedSwap? h)
  obtain ⟨a, b, P, Q⟩ := i
  cases P <;> cases Q <;> simp [fusedSwap?, Interaction.gate] at h <;> subst h <;>
    simp [Interaction.operands, Interaction.pair, ofPair?, sidesOf, mk_sortedSides, Sym2.eq_swap]

theorem fusedSwap?_make (a b : Nat) {Q : Basis} (hQ : Q ≠ .y) :
    ∃ g, fusedSwap? (.make a .z b Q) = some g := by
  unfold Interaction.make
  cases Q <;> simp at hQ <;> split <;> exact ⟨_, rfl⟩

theorem shown_make_interactSwap (a b : Nat) {Q : Basis} (hQ : Q ≠ .y) :
    Layer.shown ofPiece (.interactSwap [.make a .z b Q]) = [interactSwap s((a, .z), (b, Q))] := by
  obtain ⟨g, hg⟩ := fusedSwap?_make a b hQ
  rw [Layer.shown, List.flatMap_singleton, shownInteractSwap_fused hg, sidesOf_make]

/-- The layer of a two-qubit gate shows the operation of the gate. -/
theorem shown_yieldsPair {g : Gate} {a b : Nat} {l : Layer} (h : YieldsPair g a b l) :
    ∃ e, ofPair? g a b = some e ∧ Layer.shown ofPiece l = [e] := by
  cases h with
  | swap =>
    refine ⟨_, rfl, ?_⟩
    rw [Layer.shown, List.flatMap_singleton, ← mk_sortedPair]
    exact shownPair_of_ofPair? rfl rfl
  | iswap =>
    refine ⟨_, rfl, ?_⟩
    rw [Layer.shown, List.flatMap_singleton, ← mk_sortedPair]
    exact shownPair_of_ofPair? rfl rfl
  | czSwap => exact ⟨_, rfl, shown_make_interactSwap a b (by decide)⟩
  | controlledSwap => exact ⟨_, rfl, shown_make_interactSwap a b (by decide)⟩
  | swapControlled => exact ⟨_, rfl, shown_make_interactSwap b a (by decide)⟩
  | controlled P Q =>
    refine ⟨_, rfl, ?_⟩
    rw [Layer.shown, List.flatMap_singleton, shownPair_interaction, sidesOf_make]

theorem shown_yieldsTargets {g : Gate} {group : List Target} {l : Layer}
    (h : YieldsTargets g group l) (hkind : g.kind = .clifford2) (numbers : List Int) :
    Layer.shown ofPiece l = ofPiece g numbers group := by
  obtain ⟨hs, ht, hpair⟩ := h
  obtain ⟨e, he, hshown⟩ := shown_yieldsPair hpair
  rw [hshown, ofPiece_pair hkind hs ht, he, Option.getD_some]

theorem shown_pairLayers {g : Gate} {more : List Layer} (hg : i.gate? = some g)
    (hkind : g.kind = .clifford2)
    (hmore : List.Forall₂ (YieldsTargets g) (Target.pairs i.targets) more) :
    more.flatMap (Layer.shown ofPiece) = i.shown ofPiece := by
  rw [shown_of_gate? ofPiece hg,
    targetGroups_of_isPairwise (by rw [kind_of_gate? hg, hkind]; rfl)]
  generalize Target.pairs i.targets = groups at hmore
  induction hmore with
  | nil => rfl
  | cons hl _ ih =>
    rw [List.flatMap_cons, List.flatMap_cons, shown_yieldsTargets hl hkind, ih]

/-- Layers, one a qubit of an instruction, show what the instruction shows when each shows what a
target on its qubit does. -/
theorem shown_qubitLayers {g : Gate} (hg : i.gate? = some g) (hsingle : g.kind.isSingle = true)
    (hplain : i.isClassicallyControlled = false) {layer : Nat → Layer}
    (h : ∀ t : Target, t.isClassical = false → ofPiece g (i.args.map Scalar.position) [t] =
      t.qubit?.toList.flatMap fun q => Layer.shown ofPiece (layer q)) :
    (i.qubits.map layer).flatMap (Layer.shown ofPiece) = i.shown ofPiece := by
  have hclassical := isClassical_eq_false hplain (by
    rw [kind_of_gate? hg]
    intro hkind
    simp [hkind, GateKind.isSingle, GateKind.isMetadata] at hsingle)
  rw [List.flatMap_map, shown_of_isSingle ofPiece hg hsingle, Instruction.qubits]
  apply flatMap_qubits
  intro t ht
  exact h t (hclassical t ht)

theorem shown_rotation_singleton (q : Nat) (r : Rotation) :
    Layer.shown ofPiece (.rotation (OrderedMap.ofList [(q, r)])) =
      if r.isIdentity then [] else [rotate r q] := by
  cases hr : r.isIdentity <;>
    simp [Layer.shown, OrderedMap.ofList, OrderedMap.insertAll, OrderedMap.insert,
      OrderedMap.alter, OrderedMap.alterEntries, OrderedMap.empty, hr, ofPiece, Gate.kind,
      GateKind.isMetadata, Target.isClassical, Target.isRecord, Target.isSweep, Target.qubit?]

theorem shown_reset_singleton (q : Nat) (b : Basis) :
    Layer.shown ofPiece (.reset [(q, b)]) = [reset q b] := rfl

theorem shown_measure_singleton (t : MeasureTarget) :
    Layer.shown ofPiece (.measure [t]) =
      [measure t.qubit t.basis (t.args.map Scalar.position)] := rfl

theorem shown_measureLayers (b : Basis) :
    (measureLayers i b).flatMap (Layer.shown ofPiece) =
      i.qubits.map fun q => measure q b (i.args.map Scalar.position) := by
  rw [measureLayers, List.flatMap_map, List.map_eq_flatMap]
  simp only [shown_measure_singleton]

theorem shown_resetLayers (b : Basis) :
    (resetLayers i b).flatMap (Layer.shown ofPiece) = i.qubits.map fun q => reset q b := by
  rw [resetLayers, List.flatMap_map, List.map_eq_flatMap]
  simp only [shown_reset_singleton]

/-- Operations, some for each qubit that touch this qubit alone, are on a qubit those of its
occurrences. -/
theorem on_flatMap {f : Nat → List Elementary} (hf : ∀ p, ∀ e ∈ f p, ∀ q, e.Touches q ↔ q = p)
    (qubits : List Nat) (q : Nat) :
    on q (qubits.flatMap f) = (List.replicate (qubits.count q) q).flatMap f := by
  have hpiece : ∀ p, (f p).filter (fun e => decide (e.Touches q)) = if p = q then f p else [] := by
    intro p
    split
    · next hq =>
      apply List.filter_eq_self.2
      intro e he
      exact decide_eq_true ((hf p e he q).2 hq.symm)
    · next hq =>
      apply List.filter_eq_nil_iff.2
      intro e he htouches
      exact hq ((hf p e he q).1 (of_decide_eq_true htouches)).symm
  rw [on, List.filter_flatMap, ← List.filter_eq]
  induction qubits with
  | nil => rfl
  | cons p qubits ih =>
    rw [List.flatMap_cons, hpiece, ih, List.filter_cons]
    by_cases hq : p = q <;> simp [hq]

/-- Measuring all qubits and then resetting them is, on each, measuring and resetting, as long as
no qubit is named twice. -/
theorem on_measureReset {qubits : List Nat} (h : qubits.Nodup) (b : Basis) (numbers : List Int)
    (q : Nat) :
    on q ((qubits.map fun q => measure q b numbers) ++ qubits.map fun q => reset q b) =
      on q (qubits.flatMap fun q => [measure q b numbers, reset q b]) := by
  have hcount : qubits.count q ≤ 1 := List.nodup_iff_count_le_one.1 h q
  rw [on_append, List.map_eq_flatMap, List.map_eq_flatMap, on_flatMap (by simp [Touches]),
    on_flatMap (by simp [Touches]), on_flatMap (by simp [Touches])]
  rcases Nat.le_one_iff_eq_zero_or_eq_one.1 hcount with hcount | hcount <;> rw [hcount] <;> rfl

theorem same_measureResetLayers {b : Basis} (hapart : i.ResetsApart)
    (hg : i.gate? = some (.measureReset b)) (hplain : i.isClassicallyControlled = false) (q : Nat) :
    on q ((measureLayers i b ++ resetLayers i b).flatMap (Layer.shown ofPiece)) =
      on q (i.shown ofPiece) := by
  have hkind : i.kind = .measureReset := kind_of_gate? hg
  have hclassical := isClassical_eq_false hplain (by rw [hkind]; decide)
  have hshown : i.shown ofPiece = i.qubits.flatMap fun q =>
      [measure q b (i.args.map Scalar.position), reset q b] := by
    rw [shown_of_isSingle ofPiece hg rfl, Instruction.qubits]
    apply (flatMap_qubits _).symm
    intro t ht
    cases hq : t.qubit? <;>
      simp [ofPiece, Gate.kind, GateKind.isMetadata, hclassical t ht, hq]
  rw [List.flatMap_append, shown_measureLayers, shown_resetLayers, hshown]
  exact on_measureReset (hapart hkind) b _ q

theorem factorsOf_factorTargets (factors : List (Nat × Basis)) :
    factorsOf (factorTargets factors) = factors := by
  induction factors with
  | nil => rfl
  | cons factor factors ih => simp [factorsOf, factorTargets]

theorem shown_product (p : MeasuredProduct) :
    Layer.shown ofPiece (.product [p]) = [product p.factors (p.args.map Scalar.position)] := by
  have hnone : (factorTargets p.factors).any Target.isClassical = false := by
    simp [factorTargets, Target.isClassical, Target.isRecord, Target.isSweep]
  rw [Layer.shown, List.flatMap_singleton]
  simp only [ofPiece, hnone, factorsOf_factorTargets, Gate.kind, GateKind.isMetadata,
    Bool.false_eq_true, if_false]

theorem shown_productLayers (hg : i.gate? = some .measureProduct)
    (hplain : i.isClassicallyControlled = false) :
    ((Target.productGroups i.targets).map fun group =>
      Layer.product [⟨factorsOf group, i.args⟩]).flatMap (Layer.shown ofPiece) =
        i.shown ofPiece := by
  have hkind : i.kind = .measureProduct := kind_of_gate? hg
  have hclassical := isClassical_eq_false hplain (by rw [hkind]; decide)
  rw [shown_of_gate? ofPiece hg, targetGroups_of_isProduct (by rw [hkind]; rfl),
    List.flatMap_map]
  apply List.flatMap_congr
  intro group hgroup
  have hnone : group.any Target.isClassical = false := by
    rw [List.any_eq_false]
    intro t ht
    simp [hclassical t ((Target.mem_productGroups hgroup).2 t ht).1]
  rw [shown_product]
  simp only [ofPiece, hnone, Gate.kind, GateKind.isMetadata, Bool.false_eq_true, if_false]

/-- The layers that an instruction yields show, on every qubit, what the instruction shows. -/
theorem same_yields {more : List Layer} (hapart : i.ResetsApart) (h : Yields i more) (q : Nat) :
    on q (more.flatMap (Layer.shown ofPiece)) = on q (i.shown ofPiece) := by
  have hmetadata : ∀ {g : Gate}, i.gate? = some g → g.kind.isMetadata = true →
      i.shown ofPiece = [] := by
    intro g hg hkind
    simp [shown_of_gate? ofPiece hg, ofPiece, hkind]
  have hsingle : ∀ {g : Gate} {layer : Nat → Layer}, i.gate? = some g →
      g.kind.isSingle = true → i.isClassicallyControlled = false →
      (∀ t : Target, t.isClassical = false → ofPiece g (i.args.map Scalar.position) [t] =
        t.qubit?.toList.flatMap fun q => Layer.shown ofPiece (layer q)) →
      on q ((i.qubits.map layer).flatMap (Layer.shown ofPiece)) = on q (i.shown ofPiece) := by
    intro g layer hg hkind hplain h
    rw [shown_qubitLayers hg hkind hplain h]
  cases h with
  | feedback => simp [Layer.shown]
  | tick hg => simp [Layer.shown, hmetadata hg rfl]
  | coords hg =>
    rw [hmetadata hg rfl, List.flatMap_map]
    exact congrArg (on q) (List.flatMap_eq_nil_iff.2 fun _ _ => rfl)
  | shift hg => simp [Layer.shown, hmetadata hg rfl]
  | annotated => simp [Layer.shown]
  | rotation r hg hplain =>
    apply hsingle hg rfl hplain
    intro t ht
    simp only [shown_rotation_singleton]
    cases hq : t.qubit? <;> cases hr : r.isIdentity <;>
      simp [ofPiece, Gate.kind, GateKind.isMetadata, ht, hq, hr]
  | reset b hg hplain =>
    apply hsingle hg rfl hplain
    intro t ht
    cases hq : t.qubit? <;>
      simp [ofPiece, Gate.kind, GateKind.isMetadata, ht, hq, shown_reset_singleton]
  | measure b hg hplain =>
    apply hsingle hg rfl hplain
    intro t ht
    cases hq : t.qubit? <;>
      simp [ofPiece, Gate.kind, GateKind.isMetadata, ht, hq, shown_measure_singleton]
  | measureReset b hg hplain => exact same_measureResetLayers hapart hg hplain q
  | product hg hplain => rw [shown_productLayers hg hplain]
  | noise => simp [Layer.shown]
  | pairs g _ hg hkind _ hmore => rw [shown_pairLayers hg hkind hmore]

theorem isScattered_of_yields {more : List Layer} (h : Yields i more) :
    ∀ l ∈ more, l.IsScattered := by
  have hmap : ∀ {α : Type} (f : α → Layer) (xs : List α), (∀ x, (f x).IsScattered) →
      ∀ l ∈ xs.map f, l.IsScattered := by
    intro α f xs hf l hl
    obtain ⟨x, -, rfl⟩ := List.mem_map.1 hl
    exact hf x
  have hstill : ∀ {l : Layer}, l.isRearranged = false → l.IsScattered := by
    intro l hl hrearranged
    simp [hl] at hrearranged
  cases h with
  | feedback | tick | shift | annotated | noise =>
    exact List.forall_mem_singleton.2 (hstill rfl)
  | coords | reset | measure | product => exact hmap _ _ fun _ => hstill rfl
  | measureReset =>
    exact List.forall_mem_append.2 ⟨hmap _ _ fun _ => hstill rfl, hmap _ _ fun _ => hstill rfl⟩
  | rotation r =>
    apply hmap
    intro q _
    apply Scattered.of_length_le
    rw [shown_rotation_singleton]
    split <;> simp
  | pairs g _ _ _ _ hmore =>
    generalize Target.pairs i.targets = groups at hmore
    induction hmore with
    | nil => simp
    | cons hl _ ih =>
      refine List.forall_mem_cons.2 ⟨?_, ih⟩
      obtain ⟨-, -, hpair⟩ := hl
      obtain ⟨e, -, hshown⟩ := shown_yieldsPair hpair
      intro _
      apply Scattered.of_length_le
      rw [hshown]
      exact Nat.le_refl 1

end LayerCircuit

/-! ## Splitting and writing -/

theorem shown_ofPiece_of_isMetadata {i : Instruction} (h : i.kind.isMetadata = true) :
    i.shown ofPiece = [] := by
  unfold Instruction.shown
  split
  · rfl
  · next g hgate =>
    rw [Instruction.kind_of_gate? hgate] at h
    simp [ofPiece, h]

theorem shown_ofPiece_tick : Instruction.tick.shown ofPiece = [] := by
  apply shown_ofPiece_of_isMetadata
  rw [Instruction.kind_of_gate? (@Instruction.gate?_of_name Instruction.tick .tick rfl)]
  rfl

theorem faithful_localReading :
    localReading.Faithful Layer.IsOrdered Instruction.ResetsApart where
  toCongruent := congruent_localReading
  absorptive := Layer.absorptive_isOrdered
  additive := Instruction.additive_shown ofPiece
  instruction_tick := shown_ofPiece_tick
  checked _ hl := Layer.isChecked_of_mem_instructions hl.1
  vacuous _ _ hvacuous q := congrArg (on q) (Layer.shown_of_isVacuous ofPiece hvacuous)
  split i more hapart h _ q := LayerCircuit.same_yields hapart h q
  absorb l next joined h hl hnext q := by
    obtain ⟨habsorbed, hapart⟩ := Layer.absorbed_of_absorb? h
    cases hjoined : joined.isRearranged with
    | false => exact congrArg (on q) (Layer.shown_of_absorbed ofPiece habsorbed hjoined)
    | true =>
      have hordered := (Layer.absorptive_isOrdered.absorb l next joined h).2 ⟨hl, hnext⟩
      exact (hordered.2 hjoined).on_eq_of_perm
        (Layer.shown_perm_of_absorbed ofPiece habsorbed hapart) q
  write l _ hl q := by
    cases hrearranged : l.isRearranged with
    | false =>
      have hmetadata : ∀ i : Instruction, i.kind = .metadata → i.shown ofPiece = [] := by
        intro i hi
        exact shown_ofPiece_of_isMetadata (by rw [hi]; rfl)
      exact congrArg (on q) (Layer.shown_instructions hmetadata hl.1 hrearranged)
    | true =>
      exact ((hl.2 hrearranged).on_eq_of_perm
        (Layer.shown_instructions_perm shown_ofPiece_tick hrearranged).symm q).symm

/-- Splitting a circuit into layers and writing these keeps the order of the operations on every
qubit, as long as no measurement with reset names a qubit twice. -/
theorem localOperations_toCircuit {text : String} {c : Circuit} {ls : LayerCircuit}
    (hc : Circuit.parse text = .ok c) (hls : LayerCircuit.ofCircuit c = .ok ls)
    (hapart : Circuit.Everywhere Instruction.ResetsApart c) (q : Nat) :
    ls.toCircuit.localOperations q = c.localOperations q := by
  have hordered : Layer.AllHold Layer.IsOrdered ls := by
    apply Layer.absorptive_isOrdered.allHold_ofCircuit _ (Circuit.Built.of_parse hc).checked hls
    intro i more hi hyields l hl
    exact ⟨Layer.carries_of_yields hi (fun _ => hi) hyields l hl,
      LayerCircuit.isScattered_of_yields hyields l hl⟩
  have hwritten := faithful_localReading.unrolled_toCircuit hordered
  have hsplit := faithful_localReading.layers_ofCircuit hapart hls hordered
  exact (hwritten q).trans (hsplit q)

/-- Overlapping pairs, feedback and measurements with reset, in a loop. -/
def overlapText : String :=
  "H 0 1\nREPEAT 2 \x7b\nXCZ 3 0 1 2 2 3\nI 2\nMR(0.1) 0 1\nCX rec[-1] 1 0 2\nX_ERROR(0.2) 1 1\n" ++
    "MPP X0*Y1 Z2\nSWAPCX 0 1\n\x7d\nMRX 2\n"

theorem localOperations_toCircuit_overlap :
    ∃ c ls, Circuit.parse overlapText = .ok c ∧ LayerCircuit.ofCircuit c = .ok ls ∧
      Circuit.Everywhere Instruction.ResetsApart c ∧
      ls.toCircuit.localOperations 1 = c.localOperations 1 := by
  have hok : ((Circuit.parse overlapText).toOption.any fun c =>
      decide (Circuit.Everywhere Instruction.ResetsApart c) &&
        (LayerCircuit.ofCircuit c).isOk) = true := by
    decide +kernel
  cases hc : Circuit.parse overlapText with
  | error e => simp [hc, Except.toOption] at hok
  | ok c =>
    simp only [hc, Except.toOption, Option.any_some, Bool.and_eq_true, decide_eq_true_eq] at hok
    obtain ⟨hapart, hls⟩ := hok
    cases hsplit : LayerCircuit.ofCircuit c with
    | error e => simp [hsplit, Except.isOk, Except.toBool] at hls
    | ok ls => exact ⟨c, ls, rfl, hsplit, hapart, localOperations_toCircuit hc hsplit hapart 1⟩

/-- A measurement with reset that names a qubit twice is written as two measurements before the
resets. -/
theorem localOperations_measuredTwice :
    ¬ ∀ (text : String) (c : Circuit) (ls : LayerCircuit), Circuit.parse text = .ok c →
      LayerCircuit.ofCircuit c = .ok ls →
        ∀ q, ls.toCircuit.localOperations q = c.localOperations q := by
  intro hall
  have hbad : ((Circuit.parse "MR 0 0\n").toOption.any fun c =>
      (LayerCircuit.ofCircuit c).toOption.any fun ls =>
        !decide (ls.toCircuit.localOperations 0 = c.localOperations 0)) = true := by
    decide +kernel
  cases hc : Circuit.parse "MR 0 0\n" with
  | error e => simp [hc, Except.toOption] at hbad
  | ok c =>
    cases hls : LayerCircuit.ofCircuit c with
    | error e => simp [hc, hls, Except.toOption] at hbad
    | ok ls =>
      simp only [hc, hls, Except.toOption, Option.any_some, Bool.not_eq_true',
        decide_eq_false_iff_not] at hbad
      exact hbad (hall _ c ls hc hls 0)

end StabCircuit
