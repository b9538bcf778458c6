import StabCircuit.Proofs.Circuit.Unrolled

/-!
# Pieces of an instruction

An instruction is a list of independent pieces: single targets, pairs and products.
Sound instructions are checked and measure qubits only; each piece of one, written as
an instruction of its own, is sound and has that piece alone.
-/

namespace StabCircuit

/-- Whether every target is a piece. -/
def GateKind.isSingle (k : GateKind) : Bool := !k.isMetadata && !k.isProduct && !k.isPairwise

/-- Whether a gate has no results and annotates none. -/
def Gate.isSilent (g : Gate) : Bool :=
  !g.kind.isMeasurement && g != .detector && g != .observableInclude

/-! ## Groups of a target list -/

namespace Target

theorem mem_extendProduct {group : List Target} {joining : Bool} {ts : List Target}
    (hgroup : group ≠ []) {g : List Target} (hg : g ∈ extendProduct group joining ts) :
    g ≠ [] ∧ ∀ t ∈ g, t ∈ group ∨ t ∈ ts ∧ t.isCombiner = false := by
  induction ts generalizing group joining with
  | nil =>
    obtain rfl : g = group := by simpa [extendProduct] using hg
    exact ⟨hgroup, fun t ht => .inl ht⟩
  | cons a rest ih =>
    have hlater : ∀ {t : Target}, t ∈ rest ∧ t.isCombiner = false →
        t ∈ a :: rest ∧ t.isCombiner = false :=
      fun h => ⟨List.mem_cons_of_mem _ h.1, h.2⟩
    simp only [extendProduct] at hg
    split at hg
    · obtain ⟨hne, hall⟩ := ih hgroup hg
      exact ⟨hne, fun t ht => (hall t ht).imp_right hlater⟩
    · next ha =>
      have ha' : a ∈ a :: rest ∧ a.isCombiner = false := ⟨by simp, by simpa using ha⟩
      split at hg
      · obtain ⟨hne, hall⟩ := ih (by simp) hg
        refine ⟨hne, fun t ht => ?_⟩
        rcases hall t ht with h | h
        · rcases List.mem_append.1 h with h | h
          · exact .inl h
          · exact .inr (List.mem_singleton.1 h ▸ ha')
        · exact .inr (hlater h)
      · rcases List.mem_cons.1 hg with rfl | hg
        · exact ⟨hgroup, fun t ht => .inl ht⟩
        · obtain ⟨hne, hall⟩ := ih (by simp) hg
          refine ⟨hne, fun t ht => ?_⟩
          rcases hall t ht with h | h
          · exact .inr (List.mem_singleton.1 h ▸ ha')
          · exact .inr (hlater h)

/-- A product of a target list has a factor, and its factors are targets of the list. -/
theorem mem_productGroups {ts g : List Target} (hg : g ∈ productGroups ts) :
    g ≠ [] ∧ ∀ t ∈ g, t ∈ ts ∧ t.isCombiner = false := by
  induction ts with
  | nil => simp [productGroups] at hg
  | cons a rest ih =>
    simp only [productGroups] at hg
    split at hg
    · obtain ⟨hne, hall⟩ := ih hg
      exact ⟨hne, fun t ht => ⟨List.mem_cons_of_mem _ (hall t ht).1, (hall t ht).2⟩⟩
    · next ha =>
      obtain ⟨hne, hall⟩ := mem_extendProduct (by simp) hg
      refine ⟨hne, fun t ht => ?_⟩
      rcases hall t ht with h | h
      · rw [List.mem_singleton.1 h]
        exact ⟨by simp, by simpa using ha⟩
      · exact ⟨List.mem_cons_of_mem _ h.1, h.2⟩

theorem joinProduct_cons (a : Target) (rest : List Target) :
    joinProduct (a :: rest) = a :: rest.flatMap fun t => [combiner, t] := by
  induction rest generalizing a with
  | nil => rfl
  | cons b rest ih =>
    have hstep : joinProduct (a :: b :: rest) = a :: combiner :: joinProduct (b :: rest) := rfl
    rw [hstep, ih]
    rfl

theorem extendProduct_joined {group rest : List Target}
    (h : ∀ t ∈ rest, t.isCombiner = false) :
    extendProduct group false (rest.flatMap fun t => [combiner, t]) = [group ++ rest] := by
  induction rest generalizing group with
  | nil => simp [extendProduct]
  | cons b rest ih =>
    rw [List.forall_mem_cons] at h
    have hstep : extendProduct group false ((b :: rest).flatMap fun t => [combiner, t]) =
        extendProduct (group ++ [b]) false (rest.flatMap fun t => [combiner, t]) := by
      have hcombiner : combiner.isCombiner = true := rfl
      simp [extendProduct, hcombiner, h.1]
    rw [hstep, ih h.2, List.append_assoc, List.singleton_append]

/-- A written product is read as that product. -/
theorem productGroups_joinProduct {group : List Target} (hne : group ≠ [])
    (h : ∀ t ∈ group, t.isCombiner = false) : productGroups (joinProduct group) = [group] := by
  cases group with
  | nil => exact absurd rfl hne
  | cons a rest =>
    rw [List.forall_mem_cons] at h
    rw [joinProduct_cons, productGroups, h.1, extendProduct_joined h.2]
    rfl

theorem getLast?_joinProduct (group : List Target) :
    (joinProduct group).getLast? = group.getLast? := by
  induction group with
  | nil => rfl
  | cons a rest ih =>
    cases rest with
    | nil => rfl
    | cons b rest =>
      have hstep : joinProduct (a :: b :: rest) = [a, combiner] ++ joinProduct (b :: rest) := rfl
      have hsome : (b :: rest).getLast? = some (rest.getLast?.getD b) := List.getLast?_cons
      have hsame : (a :: b :: rest).getLast? = (b :: rest).getLast? := List.getLast?_cons_cons
      rw [hstep, List.getLast?_append, ih, hsame, hsome]
      rfl

theorem mem_joinProduct {group : List Target} {t : Target} (h : t ∈ joinProduct group) :
    t ∈ group ∨ t = combiner := by
  cases group with
  | nil => simp [joinProduct] at h
  | cons a rest =>
    rw [joinProduct_cons] at h
    rcases List.mem_cons.1 h with rfl | h
    · exact .inl (by simp)
    · obtain ⟨s, hs, ht⟩ := List.mem_flatMap.1 h
      rcases List.mem_pair.1 ht with rfl | rfl
      · exact .inr rfl
      · exact .inl (List.mem_cons_of_mem _ hs)

theorem mem_of_mem_pairs {ts g : List Target} (hg : g ∈ pairs ts) : ∀ t ∈ g, t ∈ ts := by
  induction ts using pairs.induct with
  | case1 => simp [pairs] at hg
  | case2 a =>
    rw [pairs, List.mem_singleton] at hg
    simp [hg]
  | case3 a b rest ih =>
    rw [pairs] at hg
    rcases List.mem_cons.1 hg with rfl | hg
    · simp
    · intro t ht
      simp [ih hg t ht]

theorem flatten_pairs (ts : List Target) : (pairs ts).flatten = ts := by
  induction ts using pairs.induct with
  | case1 => rfl
  | case2 a => rfl
  | case3 a b rest ih => simp [pairs, ih]

theorem qubit?_of_isCombiner {t : Target} (h : t.isCombiner = true) : t.qubit? = none := by
  cases t <;> simp [isCombiner] at h
  rfl

theorem flatMap_qubit?_extendProduct (group : List Target) (joining : Bool) (ts : List Target) :
    (extendProduct group joining ts).flatMap (List.filterMap qubit?) =
      group.filterMap qubit? ++ ts.filterMap qubit? := by
  induction ts generalizing group joining with
  | nil => simp [extendProduct]
  | cons t ts ih =>
    rw [extendProduct]
    split
    · next hcombiner =>
      rw [ih, List.filterMap_cons_none (qubit?_of_isCombiner hcombiner)]
    · split
      · rw [ih, List.filterMap_append, List.append_assoc, ← List.filterMap_append,
          List.singleton_append]
      · rw [List.flatMap_cons, ih, ← List.filterMap_append, List.singleton_append]

theorem flatMap_qubit?_productGroups (ts : List Target) :
    (productGroups ts).flatMap (List.filterMap qubit?) = ts.filterMap qubit? := by
  induction ts with
  | nil => rfl
  | cons t ts ih =>
    rw [productGroups]
    split
    · next hcombiner =>
      rw [ih, List.filterMap_cons_none (qubit?_of_isCombiner hcombiner)]
    · rw [flatMap_qubit?_extendProduct, ← List.filterMap_append, List.singleton_append]

theorem mem_pairs {ts g : List Target} (heven : ts.length % 2 = 0) (hg : g ∈ pairs ts) :
    ∃ a ∈ ts, ∃ b ∈ ts, g = [a, b] := by
  induction ts using pairs.induct with
  | case1 => simp [pairs] at hg
  | case2 a => simp at heven
  | case3 a b rest ih =>
    rw [pairs] at hg
    rcases List.mem_cons.1 hg with rfl | hg
    · exact ⟨a, by simp, b, by simp, rfl⟩
    · have hrest : rest.length % 2 = 0 := by
        simp only [List.length_cons] at heven
        omega
      obtain ⟨s, hs, t, ht, rfl⟩ := ih hrest hg
      exact ⟨s, by simp [hs], t, by simp [ht], rfl⟩

end Target

namespace Instruction

/-- A written product passes the check of products. -/
theorem targetFault?_joinProduct {g : Gate} (h : g.kind = .measureProduct ∨ g.kind = .noiseProduct)
    {group : List Target} (hne : group ≠ []) (hpauli : ∀ t ∈ group, t.isPauli = true) :
    targetFault? g (Target.joinProduct group) = none := by
  have hfactor : ∀ t ∈ group, t.isCombiner = false := by
    intro t ht
    cases t with
    | combiner => exact absurd (hpauli _ ht) (by simp [Target.isPauli])
    | _ => rfl
  refine (targetFault?_product_iff h).2 ⟨?_, ?_, fun t ht => ?_⟩
  · obtain ⟨t, rest, rfl⟩ := List.exists_cons_of_ne_nil hne
    rw [Target.joinProduct_cons]
    exact hfactor t (by simp)
  · rw [Target.getLast?_joinProduct]
    refine (Option.any_eq_false _ _).2 fun t ht => ?_
    simp [hfactor t (List.mem_of_getLast? ht)]
  · rcases Target.mem_joinProduct ht with ht | rfl
    · exact .inl (hpauli t ht)
    · exact .inr rfl

/-- The targets of a single-qubit measurement are qubits. -/
def MeasuresQubits (i : Instruction) : Prop :=
  i.kind = .measure ∨ i.kind = .measureReset → ∀ t ∈ i.targets, t.qubit?.isSome = true

instance : DecidablePred MeasuresQubits := fun _ => inferInstanceAs (Decidable (_ → _))

/-- A checked instruction that measures qubits only. -/
def IsSound (i : Instruction) : Prop := i.IsChecked ∧ i.MeasuresQubits

theorem joinable_isSound : Circuit.Joinable IsSound where
  checked _ h := h.1
  join last next hlast hnext hfuses := by
    refine ⟨hlast.1.join hnext.1 hfuses, fun hkind t ht => ?_⟩
    rw [kind_join] at hkind
    obtain ⟨g, -, hname, hname', -⟩ := exists_gate_of_fuses hlast.1 hnext.1 hfuses
    have hsame : next.kind = last.kind := by
      rw [kind_of_gate? (gate?_of_name hname), kind_of_gate? (gate?_of_name hname')]
    rcases List.mem_append.1 ht with ht | ht
    · exact hlast.2 hkind t ht
    · rw [← hsame] at hkind
      exact hnext.2 hkind t ht

/-- A checked instruction over plain qubits of a gate that has no results and annotates none. -/
def IsPlain (i : Instruction) : Prop :=
  ∃ (g : Gate) (qubits : List Nat), i.name = g.name ∧ i.targets = qubits.map .qubit ∧
    targetFault? g i.targets = none ∧ g.isSilent = true

theorem IsPlain.isSound {i : Instruction} (h : i.IsPlain) : i.IsSound := by
  obtain ⟨g, qubits, hname, htargets, hfault, -⟩ := h
  refine ⟨isChecked_iff.2 ⟨g, hname, hfault⟩, fun _ t ht => ?_⟩
  rw [htargets] at ht
  obtain ⟨q, -, rfl⟩ := List.mem_map.1 ht
  rfl

theorem isPlain_tick : Instruction.tick.IsPlain := ⟨.tick, [], rfl, rfl, rfl, rfl⟩

theorem isSound_tick : Instruction.tick.IsSound := isPlain_tick.isSound

theorem isPlain_onQubits {g : Gate} (hg : ∀ targets, targetFault? g targets = none)
    (hsilent : g.isSilent = true) (qubits : List Nat) (args : List Scalar) :
    (onQubits g qubits args).IsPlain :=
  ⟨g, qubits, rfl, rfl, hg _, hsilent⟩

theorem isClassical_eq_false {i : Instruction} (h : i.isClassicallyControlled = false)
    (hkind : i.kind ≠ .metadata) : ∀ t ∈ i.targets, t.isClassical = false := by
  have hnone : i.targets.any Target.isClassical = false := by
    simpa [isClassicallyControlled, hkind] using h
  simpa using hnone

theorem isClassical_of_qubit? {t : Target} {q : Nat} (h : t.qubit? = some q) :
    t.isClassical = false := by
  cases t <;> simp [Target.qubit?] at h <;> rfl

/-- What is read off the qubits among targets, target by target. -/
theorem flatMap_qubits {β : Type} {f : Nat → List β} {g : Target → List β} {targets : List Target}
    (h : ∀ t ∈ targets, g t = t.qubit?.toList.flatMap f) :
    (targets.filterMap Target.qubit?).flatMap f = targets.flatMap g := by
  rw [List.filterMap_eq_flatMap_toList, List.flatMap_assoc]
  exact List.flatMap_congr fun t ht => (h t ht).symm

/-! ## Pieces as instructions of their own -/

/-- A piece of an instruction as an instruction of its own. -/
def pieceOf (i : Instruction) (group : List Target) : Instruction :=
  { i with targets := if i.kind.isProduct then Target.joinProduct group else group }

theorem targetGroups_of_isProduct {i : Instruction} (h : i.kind.isProduct = true) :
    i.targetGroups = Target.productGroups i.targets := by
  unfold targetGroups
  cases hkind : i.kind <;> simp_all [GateKind.isProduct]

theorem targetGroups_of_isPairwise {i : Instruction} (h : i.kind.isPairwise = true) :
    i.targetGroups = Target.pairs i.targets := by
  unfold targetGroups
  cases hkind : i.kind <;> simp_all [GateKind.isPairwise]

theorem targetGroups_of_isSingle {i : Instruction} (h : i.kind.isSingle = true) :
    i.targetGroups = i.targets.map fun t => [t] := by
  unfold targetGroups
  cases hkind : i.kind <;> simp_all [GateKind.isSingle, GateKind.isMetadata, GateKind.isProduct,
    GateKind.isPairwise]

theorem mem_of_mem_targetGroups {i : Instruction} {group : List Target}
    (h : group ∈ i.targetGroups) : ∀ t ∈ group, t ∈ i.targets := by
  intro t ht
  unfold targetGroups at h
  split at h
  · rw [List.mem_singleton.1 h] at ht
    exact ht
  · rw [List.mem_singleton.1 h] at ht
    exact ht
  · exact ((Target.mem_productGroups h).2 t ht).1
  · exact ((Target.mem_productGroups h).2 t ht).1
  · exact Target.mem_of_mem_pairs h t ht
  · exact Target.mem_of_mem_pairs h t ht
  · obtain ⟨s, hs, rfl⟩ := List.mem_map.1 h
    rw [List.mem_singleton.1 ht]
    exact hs

/-- The qubits of an instruction are those of its groups. -/
theorem flatMap_qubit?_targetGroups (i : Instruction) :
    i.targetGroups.flatMap (List.filterMap Target.qubit?) = i.qubits := by
  unfold targetGroups qubits
  split
  · exact List.flatMap_singleton _ _
  · exact List.flatMap_singleton _ _
  · exact Target.flatMap_qubit?_productGroups i.targets
  · exact Target.flatMap_qubit?_productGroups i.targets
  · rw [List.flatMap_def, ← List.filterMap_flatten, Target.flatten_pairs]
  · rw [List.flatMap_def, ← List.filterMap_flatten, Target.flatten_pairs]
  · rw [List.flatMap_map, List.filterMap_eq_flatMap_toList]
    apply List.flatMap_congr
    intro t _
    rw [List.filterMap_eq_flatMap_toList, List.flatMap_singleton]

theorem targetFault?_of_isSingle {g : Gate} (h : g.kind.isSingle = true) (ts : List Target) :
    targetFault? g ts = none := by
  cases g <;> simp [Gate.kind, GateKind.isSingle, GateKind.isMetadata, GateKind.isProduct,
    GateKind.isPairwise] at h <;> simp [targetFault?, Gate.kind]

/-- The piece has targets of the instruction and, as an instruction of its own, is checked and has
that piece alone. -/
structure IsPiece (i : Instruction) (group : List Target) : Prop where
  mem : ∀ t ∈ group, t ∈ i.targets
  checked : (i.pieceOf group).IsChecked
  targetGroups : (i.pieceOf group).targetGroups = [group]

theorem isPiece_of_isProduct {i : Instruction} (hi : i.IsChecked) (h : i.kind.isProduct = true)
    {group : List Target} (hgroup : group ∈ i.targetGroups) : i.IsPiece group := by
  obtain ⟨g, hname, -, hkind, hfault⟩ := hi.exists_gate
  have hgate : g.kind = .measureProduct ∨ g.kind = .noiseProduct := by
    rw [hkind] at h
    revert h
    cases g.kind <;> simp [GateKind.isProduct]
  have htargets : (i.pieceOf group).targets = Target.joinProduct group := by simp [pieceOf, h]
  rw [targetGroups_of_isProduct h] at hgroup
  obtain ⟨hne, hmem⟩ := Target.mem_productGroups hgroup
  have hpauli : ∀ t ∈ group, t.isPauli = true := by
    intro t ht
    obtain ⟨ht, hcombiner⟩ := hmem t ht
    exact (((targetFault?_product_iff hgate).1 hfault).2.2 t ht).resolve_right (by simp [hcombiner])
  refine ⟨fun t ht => (hmem t ht).1, isChecked_iff.2 ⟨g, hname, ?_⟩, ?_⟩
  · rw [htargets]
    exact targetFault?_joinProduct hgate hne hpauli
  · rw [@targetGroups_of_isProduct (i.pieceOf group) h, htargets]
    exact Target.productGroups_joinProduct hne fun t ht => (hmem t ht).2

theorem isPiece_of_isPairwise {i : Instruction} (hi : i.IsChecked) (h : i.kind.isPairwise = true)
    {group : List Target} (hgroup : group ∈ i.targetGroups) : i.IsPiece group := by
  obtain ⟨g, hname, -, hkind, hfault⟩ := hi.exists_gate
  have hproduct : i.kind.isProduct = false := by
    revert h
    cases i.kind <;> simp [GateKind.isPairwise, GateKind.isProduct]
  have heven : ∀ ts : List Target, targetFault? g ts = none ↔ ts.length % 2 = 0 := by
    intro ts
    rw [hkind] at h
    unfold targetFault?
    cases hg : g.kind <;> simp_all [GateKind.isPairwise]
  rw [targetGroups_of_isPairwise h] at hgroup
  obtain ⟨a, ha, b, hb, rfl⟩ := Target.mem_pairs ((heven _).1 hfault) hgroup
  have htargets : (i.pieceOf [a, b]).targets = [a, b] := by simp [pieceOf, hproduct]
  refine ⟨by simp [ha, hb], isChecked_iff.2 ⟨g, hname, ?_⟩, ?_⟩
  · rw [htargets, heven]
    simp
  · rw [@targetGroups_of_isPairwise (i.pieceOf [a, b]) h, htargets]
    rfl

theorem isPiece_of_isSingle {i : Instruction} (hi : i.IsChecked) (h : i.kind.isSingle = true)
    {group : List Target} (hgroup : group ∈ i.targetGroups) : i.IsPiece group := by
  obtain ⟨g, hname, -, hkind, -⟩ := hi.exists_gate
  have hproduct : i.kind.isProduct = false := by
    revert h
    cases i.kind <;> simp [GateKind.isSingle, GateKind.isProduct]
  rw [targetGroups_of_isSingle h] at hgroup
  obtain ⟨t, ht, rfl⟩ := List.mem_map.1 hgroup
  have hgate : g.kind.isSingle = true := hkind ▸ h
  refine ⟨by simp [ht], isChecked_iff.2 ⟨g, hname, targetFault?_of_isSingle hgate _⟩, ?_⟩
  rw [@targetGroups_of_isSingle (i.pieceOf [t]) h]
  simp [pieceOf, hproduct]

/-- The groups of an instruction that is no annotation are its pieces. -/
theorem isPiece_of_mem_targetGroups {i : Instruction} (hi : i.IsChecked)
    (hkind : i.kind.isMetadata = false) {group : List Target} (hgroup : group ∈ i.targetGroups) :
    i.IsPiece group := by
  by_cases hproduct : i.kind.isProduct = true
  · exact isPiece_of_isProduct hi hproduct hgroup
  by_cases hpairwise : i.kind.isPairwise = true
  · exact isPiece_of_isPairwise hi hpairwise hgroup
  · refine isPiece_of_isSingle hi ?_ hgroup
    rw [Bool.not_eq_true] at hproduct hpairwise
    rw [GateKind.isSingle, hkind, hproduct, hpairwise]
    rfl

theorem isSound_pieceOf {i : Instruction} (hi : i.IsSound) (hkind : i.kind.isMetadata = false)
    {group : List Target} (hgroup : group ∈ i.targetGroups) : (i.pieceOf group).IsSound := by
  obtain ⟨hmem, hchecked, -⟩ := isPiece_of_mem_targetGroups hi.1 hkind hgroup
  refine ⟨hchecked, fun hmeasure t ht => ?_⟩
  have hproduct : i.kind.isProduct = false := by
    rcases hmeasure with h | h <;> rw [show i.kind = _ from h] <;> rfl
  have htarget : t ∈ group := by simpa [pieceOf, hproduct] using ht
  exact hi.2 hmeasure t (hmem t htarget)

/-! ## What pieces show -/

variable {β : Type}

/-- What an instruction shows piece by piece; `f` tells what a piece shows under a gate and the
numbers of its arguments. -/
def shown (f : Gate → List Int → List Target → List β) (i : Instruction) : List β :=
  match i.gate? with
  | none => []
  | some g => i.targetGroups.flatMap (f g (i.args.map Scalar.position))

theorem shown_of_gate? (f : Gate → List Int → List Target → List β) {i : Instruction} {g : Gate}
    (h : i.gate? = some g) :
    i.shown f = i.targetGroups.flatMap (f g (i.args.map Scalar.position)) := by
  simp [shown, h]

theorem shown_of_isSingle (f : Gate → List Int → List Target → List β) {i : Instruction} {g : Gate}
    (hg : i.gate? = some g) (h : g.kind.isSingle = true) :
    i.shown f = i.targets.flatMap fun t => f g (i.args.map Scalar.position) [t] := by
  rw [shown_of_gate? f hg, targetGroups_of_isSingle (by rwa [kind_of_gate? hg]), List.flatMap_map]

theorem shown_of_isPairwise (f : Gate → List Int → List Target → List β) {g : Gate}
    (h : g.kind.isPairwise = true) (pairs : List (Nat × Nat)) (args : List Scalar) :
    shown f { name := g.name
              targets := pairs.flatMap fun p => [.qubit p.1, .qubit p.2]
              args } =
      pairs.flatMap fun p => f g (args.map Scalar.position) [.qubit p.1, .qubit p.2] := by
  have hgate : ∀ targets, gate? { name := g.name, targets, args } = some g :=
    fun _ => gate?_of_name rfl
  have hpairs : Target.pairs (pairs.flatMap fun p => [.qubit p.1, .qubit p.2]) =
      pairs.map fun p => [.qubit p.1, .qubit p.2] := by
    induction pairs with
    | nil => rfl
    | cons p pairs ih =>
      simp only [List.flatMap_cons, List.cons_append, List.nil_append, Target.pairs, ih,
        List.map_cons]
  rw [shown_of_gate? f (hgate _), targetGroups_of_isPairwise (by rwa [kind_of_gate? (hgate _)]),
    hpairs, List.flatMap_map]

/-- What an instruction shows is what its pieces show as instructions of their own. -/
theorem flatMap_shown_pieceOf (f : Gate → List Int → List Target → List β) {i : Instruction}
    (hi : i.IsChecked) (hkind : i.kind.isMetadata = false) :
    i.targetGroups.flatMap (fun group => (i.pieceOf group).shown f) = i.shown f := by
  obtain ⟨g, -, hgate, -, -⟩ := hi.exists_gate
  rw [shown_of_gate? f hgate]
  apply List.flatMap_congr
  intro group hgroup
  have hgate' : (i.pieceOf group).gate? = some g := hgate
  rw [shown_of_gate? f hgate', (isPiece_of_mem_targetGroups hi hkind hgroup).targetGroups,
    List.flatMap_singleton]
  rfl

/-- What is shown piece by piece does not depend on how instructions are joined. -/
theorem additive_shown (f : Gate → List Int → List Target → List β) :
    Circuit.Additive (shown f) := by
  intro last next hlast hnext hfuses
  obtain ⟨g, -, hname, hname', -, -, hargs⟩ := exists_gate_of_fuses hlast hnext hfuses
  have hjoin : (last.join next).gate? = some g := gate?_of_name hname
  have hnumbers : last.args.map Scalar.position = next.args.map Scalar.position :=
    position_eq_of_listNumEq hargs
  rw [shown_of_gate? f hjoin, shown_of_gate? f (gate?_of_name hname),
    shown_of_gate? f (gate?_of_name hname'), targetGroups_join hlast hnext hfuses,
    List.flatMap_append]
  simp only [join, hnumbers]

end Instruction

theorem Circuit.Built.everywhere_isSound {c : Circuit} (hc : c.Built)
    (hmeasured : Circuit.Everywhere Instruction.MeasuresQubits c) :
    Circuit.Everywhere Instruction.IsSound c :=
  fun i hi => ⟨hc.checked i hi, hmeasured i hi⟩

end StabCircuit
