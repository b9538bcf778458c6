import StabCircuit.Proofs.Meaning.Optimization

/-!
# The change to the Z basis keeps the meaning

Every operation in another basis is the operation in the Z basis between rotations
that take its bases to Z and back.  After an exchange the rotations back stand on
the opposite qubits.
-/

namespace StabCircuit

open StabCircuit.Action

/-- The rotations that take bases to Z. -/
def toZActions (entries : List (Nat × Basis)) : List Action :=
  entries.map fun entry => .rotate (.toZ entry.2) entry.1

theorem toZActions_flatMap {ι : Type} (items : List ι) (f : ι → List (Nat × Basis)) :
    toZActions (items.flatMap f) = items.flatMap fun i => toZActions (f i) := by
  simp [toZActions, List.map_flatMap]

theorem quietOn_toZActions (entries : List (Nat × Basis)) :
    QuietOn (entries.map Prod.fst) (toZActions entries) := by
  intro x hx
  obtain ⟨entry, hentry, rfl⟩ := List.mem_map.1 hx
  refine ⟨rfl, fun q hq => ?_⟩
  rw [List.mem_singleton.1 hq]
  exact List.mem_map.2 ⟨entry, hentry, rfl⟩

/-- Rotations to Z of different qubits, performed twice, have no effect. -/
theorem sameEffect_toZActions_twice {entries : List (Nat × Basis)}
    (hnodup : (entries.map Prod.fst).Nodup) :
    SameEffect (toZActions entries ++ toZActions entries) [] := by
  rw [List.map_eq_flatMap] at hnodup
  have hquiet : ∀ entry ∈ entries, QuietOn [entry.1] [rotate (.toZ entry.2) entry.1] :=
    fun entry _ => Layer.quietOn_rotate _ entry.1
  have hswap := pairwise_swappable hnodup hquiet fun entry hentry =>
    (hquiet entry hentry).interpretedOn
  have hcollect := SameEffect.collect (hswap.imp And.left)
  have hcancel : SameEffect (entries.flatMap fun entry =>
      [rotate (.toZ entry.2) entry.1] ++ [rotate (.toZ entry.2) entry.1])
      (entries.flatMap fun _ => []) :=
    SameEffect.flatMap fun entry _ => sameEffect_toZ_toZ entry.2 entry.1
  rw [toZActions, List.map_eq_flatMap]
  exact hcollect.symm.trans (hcancel.trans (.of_eq (by simp)))

/-- An operation that can be undone after it and before the new one is the new one between the
two. -/
theorem Action.SameEffect.bracket {old after before new : List Action}
    (h : SameEffect (old ++ after) (before ++ new)) (htwice : SameEffect (after ++ after) []) :
    SameEffect (before ++ (new ++ after)) old := by
  have hfirst := h.symm.append_right after
  have hlast := htwice.append_left old
  rw [List.append_nil] at hlast
  rw [List.append_assoc, List.append_assoc] at hfirst
  exact hfirst.trans hlast

namespace Layer

/-- The layer of rotations to Z has their effect. -/
theorem sameEffect_rotationsToZ {entries : List (Nat × Basis)}
    (hnodup : (entries.map Prod.fst).Nodup) :
    SameEffect (rotationsToZ entries).actions (toZActions entries) := by
  let turned := (entries.filter fun entry => entry.2 != .z).map fun entry =>
    (entry.1, Rotation.toZ entry.2)
  have hkeys : (turned.map Prod.fst).Nodup := by
    have hmap : turned.map Prod.fst = (entries.filter fun entry => entry.2 != .z).map Prod.fst := by
      simp [turned, Function.comp_def]
    rw [hmap]
    exact hnodup.sublist (List.filter_sublist.map _)
  have hperm := sameEffect_rotationActions (OrderedMap.ofList_perm hkeys) (OrderedMap.nodup_keys _)
  refine hperm.trans ?_
  -- Those left out are in the Z basis already, and rotate by the identity.
  clear hperm hkeys hnodup
  induction entries with
  | nil => exact .refl _
  | cons entry entries ih =>
    by_cases hz : entry.2 = .z
    · have hidentity : SameEffect [] [rotate (.toZ entry.2) entry.1] := by
        rw [hz]
        exact (sameEffect_rotate_identity entry.1).symm
      have hboth := hidentity.append ih
      simpa [turned, hz, toZActions, rotationActions] using hboth
    · have hboth := ih.append_left [rotate (.toZ entry.2) entry.1]
      simpa [turned, hz, toZActions, rotationActions] using hboth

/-! ## One interaction or measurement -/

theorem sameEffect_controlled_toZ {a b : Nat} (hab : a ≠ b) (P Q : Basis) :
    SameEffect ([controlled P Q a b] ++ toZActions [(a, P), (b, Q)])
      (toZActions [(a, P), (b, Q)] ++ [controlled .z .z a b]) := by
  have hfirst := (sameEffect_controlled_rotate hab P Q).append_right [rotate (.toZ Q) b]
  have hturn : SameEffect [controlled .z Q a b, rotate (.toZ Q) b]
      [rotate (.toZ Q) b, controlled .z .z a b] := by
    have hcomm := (sameEffect_controlled_comm .z Q a b).append_right [rotate (.toZ Q) b]
    have hback := (sameEffect_controlled_comm .z .z b a).append_left [rotate (.toZ Q) b]
    exact hcomm.trans ((sameEffect_controlled_rotate hab.symm Q .z).trans hback)
  exact hfirst.trans (hturn.append_left [rotate (.toZ P) a])

theorem sameEffect_exchange_toZ (a b : Nat) (P Q : Basis) :
    SameEffect ([exchange a b] ++ toZActions [(b, P), (a, Q)])
      (toZActions [(a, P), (b, Q)] ++ [exchange a b]) := by
  have hfirst := (sameEffect_exchange_rotate (.toZ P) a b).append_right [rotate (.toZ Q) a]
  have hturn : SameEffect [exchange a b, rotate (.toZ Q) a] [rotate (.toZ Q) b, exchange a b] := by
    have hcomm := (sameEffect_exchange_comm a b).append_right [rotate (.toZ Q) a]
    have hback := (sameEffect_exchange_comm b a).append_left [rotate (.toZ Q) b]
    exact hcomm.trans ((sameEffect_exchange_rotate (.toZ Q) b a).trans hback)
  exact hfirst.trans (hturn.append_left [rotate (.toZ P) a])

theorem image_toZ (b : Basis) : (Rotation.toZ b).image b = ⟨.z, false⟩ := by
  cases b <;> rfl

theorem map_turnFactor_of_ne {factors : List (Nat × Basis)} {q : Nat}
    (h : ∀ factor ∈ factors, factor.1 ≠ q) (r : Rotation) :
    factors.map (r.turnFactor q) = factors := by
  refine (List.map_congr_left fun factor hfactor => ?_).trans (List.map_id factors)
  simp [Rotation.turnFactor, h factor hfactor]

/-- Rotations to Z after a measured product may be performed before it, which is then measured in
the Z basis. -/
theorem sameEffect_measure_toZ (done todo : List (Nat × Basis))
    (hnodup : ((done ++ todo).map Prod.fst).Nodup) :
    SameEffect ([.measure (done ++ todo)] ++ toZActions todo)
      (toZActions todo ++ [.measure (done ++ todo.map fun factor => (factor.1, .z))]) := by
  -- The factors of `done` are in the Z basis already; one more factor is turned in each step.
  induction todo generalizing done with
  | nil => exact .of_eq (by simp [toZActions])
  | cons factor todo ih =>
    have hfresh : ∀ f ∈ done ++ todo, f.1 ≠ factor.1 := by
      rw [List.map_append, List.map_cons, List.nodup_middle, ← List.map_append,
        List.nodup_cons] at hnodup
      exact fun f hf heq => hnodup.1 (List.mem_map.2 ⟨f, hf, heq⟩)
    have hturned : (done ++ factor :: todo).map ((Rotation.toZ factor.2).turnFactor factor.1) =
        done ++ [(factor.1, .z)] ++ todo := by
      rw [List.forall_mem_append] at hfresh
      rw [List.map_append, List.map_cons, map_turnFactor_of_ne hfresh.1,
        map_turnFactor_of_ne hfresh.2]
      simp [Rotation.turnFactor, image_toZ]
    have hpos : ∀ f ∈ done ++ factor :: todo, f.1 = factor.1 →
        ((Rotation.toZ factor.2).image f.2).negative = false := by
      intro f hf heq
      obtain rfl | hf := List.mem_cons.1 (List.perm_middle.subset hf)
      · rw [image_toZ]
      · exact absurd heq (hfresh f hf)
    have hstep := sameEffect_measure_rotate (.toZ factor.2) factor.1 (done ++ factor :: todo) hpos
    rw [hturned] at hstep
    have hrest := ih (done ++ [(factor.1, .z)]) (by simpa using hnodup)
    have hfirst := hstep.append_right (toZActions todo)
    have hlast := hrest.append_left [rotate (.toZ factor.2) factor.1]
    simpa [toZActions] using hfirst.trans hlast

/-! ## Whole layers -/

theorem sameEffect_toZ_action (i : Interaction) :
    SameEffect [i.toZ.action] [controlled .z .z i.a i.b] :=
  sameEffect_make i.a i.b .z .z

theorem sides_nodup {interactions : List Interaction}
    (hnodup : (interact interactions).slots.Nodup) :
    ((interactions.flatMap Interaction.sides).map Prod.fst).Nodup := by
  rw [List.map_flatMap]
  exact hnodup

theorem exchangedSides_nodup {interactions : List Interaction}
    (hnodup : (interact interactions).slots.Nodup) :
    ((interactions.flatMap Interaction.exchangedSides).map Prod.fst).Nodup := by
  rw [List.map_flatMap]
  refine (List.Perm.nodup_iff (List.Perm.flatMap_left _ fun i _ => ?_)).2 hnodup
  exact List.Perm.swap i.a i.b []

theorem ne_of_mem {interactions : List Interaction}
    (hnodup : (interact interactions).slots.Nodup) {i : Interaction} (hi : i ∈ interactions) :
    i.a ≠ i.b := by
  have hpair := (List.nodup_flatMap.1 hnodup).1 i hi
  simpa using hpair

theorem quietOn_sides (i : Interaction) : QuietOn [i.a, i.b] (toZActions i.sides) :=
  quietOn_toZActions i.sides

theorem quietOn_exchangedSides (i : Interaction) :
    QuietOn [i.a, i.b] (toZActions i.exchangedSides) :=
  fun x hx => ⟨(quietOn_toZActions _ x hx).1, fun q hq =>
    (List.Perm.swap i.a i.b []).subset ((quietOn_toZActions _ x hx).2 q hq)⟩

theorem sameEffect_interact_toZ {interactions : List Interaction}
    (hnodup : (interact interactions).slots.Nodup) :
    SameEffect
      ((rotationsToZ (interactions.flatMap Interaction.sides)).actions ++
        ((interact (interactions.map Interaction.toZ)).actions ++
          (rotationsToZ (interactions.flatMap Interaction.sides)).actions))
      (interact interactions).actions := by
  have hsides := sides_nodup hnodup
  have hchange := sameEffect_rotationsToZ hsides
  have hz : SameEffect (interact (interactions.map Interaction.toZ)).actions
      (interactions.map fun i => controlled .z .z i.a i.b) := by
    rw [actions, List.map_map]
    exact SameEffect.map_congr fun i _ => sameEffect_toZ_action i
  refine (hchange.append (hz.append hchange)).trans
    (SameEffect.bracket ?_ (sameEffect_toZActions_twice hsides))
  have hquiet : ∀ i ∈ interactions, QuietOn [i.a, i.b] [controlled .z .z i.a i.b] := by
    simp [QuietOn, isQuiet, Action.qubits]
  have hold := pairwise_swappable hnodup (fun i _ => quietOn_sides i)
    fun i _ => (quietOn_interaction i).interpretedOn
  have hnew := pairwise_swappable hnodup hquiet fun i _ => (quietOn_sides i).interpretedOn
  have hall := SameEffect.interchange
    (fun i hi => sameEffect_controlled_toZ (ne_of_mem hnodup hi) i.basisA i.basisB)
    (hold.imp And.left) (hnew.imp And.left)
  rw [toZActions_flatMap, actions, List.map_eq_flatMap, List.map_eq_flatMap]
  exact hall

theorem sameEffect_interactSwap_toZ {interactions : List Interaction}
    (hnodup : (interact interactions).slots.Nodup) :
    SameEffect
      ((rotationsToZ (interactions.flatMap Interaction.sides)).actions ++
        ((interactSwap (interactions.map Interaction.toZ)).actions ++
          (rotationsToZ (interactions.flatMap Interaction.exchangedSides)).actions))
      (interactSwap interactions).actions := by
  have hafter := exchangedSides_nodup hnodup
  have hz : SameEffect (interactSwap (interactions.map Interaction.toZ)).actions
      (interactions.flatMap fun i => [controlled .z .z i.a i.b, exchange i.a i.b]) := by
    rw [actions, List.flatMap_map]
    exact SameEffect.flatMap fun i _ =>
      (sameEffect_toZ_action i).append (sameEffect_exchange_make i.a i.b .z .z)
  refine ((sameEffect_rotationsToZ (sides_nodup hnodup)).append
    (hz.append (sameEffect_rotationsToZ hafter))).trans
    (SameEffect.bracket ?_ (sameEffect_toZActions_twice hafter))
  have heach : ∀ i ∈ interactions,
      SameEffect ([i.action, exchange i.a i.b] ++ toZActions i.exchangedSides)
        (toZActions i.sides ++ [controlled .z .z i.a i.b, exchange i.a i.b]) := by
    intro i hi
    have hexchange := (sameEffect_exchange_toZ i.a i.b i.basisA i.basisB).append_left [i.action]
    have hcontrolled := (sameEffect_controlled_toZ (ne_of_mem hnodup hi) i.basisA
      i.basisB).append_right [exchange i.a i.b]
    simpa [Interaction.sides, Interaction.exchangedSides, toZActions] using
      hexchange.trans hcontrolled
  have hquiet : ∀ i ∈ interactions,
      QuietOn [i.a, i.b] [controlled .z .z i.a i.b, exchange i.a i.b] := by
    simp [QuietOn, isQuiet, Action.qubits]
  have hold := pairwise_swappable hnodup (fun i _ => quietOn_exchangedSides i)
    fun i _ => ((quietOn_interaction i).append (quietOn_exchange i.a i.b)).interpretedOn
  have hnew := pairwise_swappable hnodup hquiet fun i _ => (quietOn_sides i).interpretedOn
  have hall := SameEffect.interchange heach (hold.imp And.left) (hnew.imp And.left)
  rw [toZActions_flatMap, toZActions_flatMap]
  exact hall

theorem sameEffect_reset_toZ {resets : List (Nat × Basis)} (hnodup : (reset resets).slots.Nodup) :
    SameEffect
      ((reset (resets.map fun entry => (entry.1, .z))).actions ++ (rotationsToZ resets).actions)
      (reset resets).actions := by
  have hchange := sameEffect_rotationsToZ hnodup
  have hslots : (resets.flatMap fun entry => [entry.1]).Nodup := by
    rw [← List.map_eq_flatMap]
    exact hnodup
  have hswap := pairwise_swappable hslots (fun entry _ => quietOn_rotate (.toZ entry.2) entry.1)
    (g := fun entry => [prepare entry.1 .z])
    fun entry _ => by simp [InterpretedOn, isInterpreted, Action.qubits]
  have hcollect := SameEffect.collect (hswap.imp And.left)
  have heach : SameEffect
      (resets.flatMap fun entry => [prepare entry.1 .z] ++ [rotate (.toZ entry.2) entry.1])
      (resets.flatMap fun entry => [prepare entry.1 entry.2]) :=
    SameEffect.flatMap fun entry _ => sameEffect_prepare_toZ entry.1 entry.2
  refine (hchange.append_left _).trans ?_
  rw [actions, actions, toZActions, List.map_map, List.map_eq_flatMap, List.map_eq_flatMap,
    List.map_eq_flatMap]
  exact hcollect.symm.trans heach

/-- Measured products in the Z basis between rotations have the effect of the products. -/
theorem sameEffect_products_toZ {factors : List (List (Nat × Basis))}
    (hnodup : (factors.flatMap fun fs => fs.map Prod.fst).Nodup) :
    SameEffect
      ((rotationsToZ factors.flatten).actions ++
        ((factors.map fun fs => .measure (fs.map fun factor => (factor.1, .z))) ++
          (rotationsToZ factors.flatten).actions))
      (factors.map .measure) := by
  have hflat : (factors.flatten.map Prod.fst).Nodup := by
    rw [List.map_flatten, ← List.flatMap_def]
    exact hnodup
  have hchange := sameEffect_rotationsToZ hflat
  refine (hchange.append (hchange.append_left _)).trans
    (SameEffect.bracket ?_ (sameEffect_toZActions_twice hflat))
  have heach : ∀ fs ∈ factors, SameEffect ([.measure fs] ++ toZActions fs)
      (toZActions fs ++ [.measure (fs.map fun factor => (factor.1, .z))]) :=
    fun fs hfs => sameEffect_measure_toZ [] fs ((List.nodup_flatMap.1 hnodup).1 fs hfs)
  have hold := pairwise_swappable hnodup (fun fs _ => quietOn_toZActions fs)
    (g := fun fs => [.measure fs]) fun fs _ => by
      simp [InterpretedOn, isInterpreted, Action.qubits]
  have hnew := pairwise_swappable hnodup (fun fs _ => quietOn_toZActions fs)
    (g := fun fs => [.measure (fs.map fun factor => (factor.1, .z))]) fun fs _ => by
      simp [InterpretedOn, isInterpreted, Action.qubits]
  have hall := SameEffect.interchange heach (hold.imp And.left) (hnew.imp And.right)
  have hflatten : toZActions factors.flatten = factors.flatMap toZActions := by
    have h := toZActions_flatMap factors id
    simpa [List.flatMap_id] using h
  rw [hflatten, List.map_eq_flatMap, List.map_eq_flatMap]
  exact hall

/-- The Z-basis form of a disjoint layer has the effect of the layer. -/
theorem sameEffect_layerToZ {l : Layer} (hl : l.isLoop = false) (hdisjoint : l.isDisjoint = true) :
    SameEffect ((LayerCircuit.layerToZ l).flatMap Layer.actions) l.actions := by
  cases l with
  | loop count body => simp [isLoop] at hl
  | interact interactions =>
    rw [LayerCircuit.layerToZ]
    split
    · exact .of_eq (by simp)
    · simpa using sameEffect_interact_toZ (nodup_of_isDisjoint hdisjoint rfl)
  | interactSwap interactions =>
    rw [LayerCircuit.layerToZ]
    split
    · exact .of_eq (by simp)
    · have hnodup : (interact interactions).slots.Nodup := nodup_of_isDisjoint hdisjoint rfl
      simpa using sameEffect_interactSwap_toZ hnodup
  | reset resets =>
    rw [LayerCircuit.layerToZ]
    split
    · exact .of_eq (by simp)
    · simpa using sameEffect_reset_toZ (nodup_of_isDisjoint hdisjoint rfl)
  | measure targets =>
    rw [LayerCircuit.layerToZ]
    split
    · exact .of_eq (by simp)
    · have hnodup : (targets.map MeasureTarget.qubit).Nodup := nodup_of_isDisjoint hdisjoint rfl
      have hz := @sameEffect_products_toZ (targets.map fun t => [(t.qubit, t.basis)])
        (by simpa [List.flatMap_map, ← List.map_eq_flatMap] using hnodup)
      have hflatten : (targets.map fun t => [(t.qubit, t.basis)]).flatten =
          targets.map fun t => (t.qubit, t.basis) := by
        rw [← List.flatMap_def, ← List.map_eq_flatMap]
      rw [hflatten] at hz
      simpa [actions, Function.comp_def] using hz
  | product products =>
    rw [LayerCircuit.layerToZ]
    split
    · exact .of_eq (by simp)
    · have hnodup := nodup_of_isDisjoint hdisjoint rfl
      have hz := @sameEffect_products_toZ (products.map MeasuredProduct.factors)
        (by simpa [List.flatMap_map, slots] using hnodup)
      rw [← List.flatMap_def] at hz
      simpa [actions, Function.comp_def] using hz
  | _ => exact .of_eq (by simp [LayerCircuit.layerToZ])

theorem stableToZ_isExact : StableToZ IsExact := by
  intro l hl
  have hsound := stableToZ_isSound l hl
  have hdisjoint := stableToZ_isDisjoint l hl
  simp only [IsExact, ← hsound, ← hdisjoint, imp_and, forall_and]

end Layer

/-- Whatever circuit in the Z basis a circuit is rewritten to has the same meaning, when no
measurement with reset names a qubit twice and single-qubit measurements are of qubits. -/
theorem zBasisCircuit_sameMeaning {c out : Circuit} (hc : c.Built)
    (hresets : Circuit.Everywhere Instruction.ResetsApart c)
    (hmeasured : Circuit.Everywhere Instruction.MeasuresQubits c)
    (h : LayerCircuit.zBasisCircuit c = .ok out) : Circuit.SameMeaning out c := by
  obtain ⟨layers, hlayers, hcheck, rfl⟩ := LayerCircuit.zBasisCircuit_eq_ok h
  have hsound := hc.everywhere_isSound hmeasured
  -- The check is made at the end, but layers that are disjoint then were so from the start.
  have hdisjoint : Layer.AllHold (fun l => l.isDisjoint = true) layers := by
    rw [← Layer.stableToZ_isDisjoint.allHold_toZ, ← Layer.stable_isDisjoint.allHold_optimized]
    exact Layer.allHold_isDisjoint_of_checkDisjoint hcheck
  have hexact : Layer.AllHold Layer.IsExact layers :=
    Layer.allHold_and.2 ⟨Layer.stable_isSound.allHold_ofCircuit
      (fun _ _ hi h => Layer.isSound_of_yields hi h) hsound hlayers, hdisjoint⟩
  have hexact' := (Layer.stableToZ_isExact.allHold_toZ layers).2 hexact
  have hsplit := lawful_actionReading.layers_ofCircuit
    (fun i hi => ⟨hsound i hi, hresets i hi⟩) hlayers hexact
  have hturned := lawful_actionReading.layers_toZ
    (fun l hl hgood => Layer.sameEffect_layerToZ hl hgood.2) hexact
  have hfused := lawful_actionReading.layers_optimized hexact'
  have hwritten := lawful_actionReading.unrolled_toCircuit
    ((Layer.stable_isExact.allHold_optimized _).2 hexact')
  exact .of_sameEffect (hwritten.trans (hfused.trans (hturned.trans hsplit)))

/-- Rounds of an interaction, an interaction with swap, a measured product and measurements with
reset, all in bases other than Z. -/
def parityRounds : Circuit :=
  Circuit.pushRepeat (List.foldl Circuit.push [] [.onQubits (.reset .y) [0, 1] []]) 2
    (List.foldl Circuit.push []
      [.onQubits (.controlled .x .y) [0, 1] [], .tick, .onQubits .controlledSwap [1, 0] [],
        ⟨Gate.measureProduct.name, [.pauli .x 0, .combiner, .pauli .y 1], []⟩,
        .onQubits (.measureReset .y) [0, 1] []])

theorem zBasisCircuit_sameMeaning_parityRounds :
    parityRounds.Built ∧ Circuit.Everywhere Instruction.ResetsApart parityRounds ∧
      Circuit.Everywhere Instruction.MeasuresQubits parityRounds ∧
      ∃ out, LayerCircuit.zBasisCircuit parityRounds = .ok out ∧
        Circuit.SameMeaning out parityRounds := by
  have hbuilt : parityRounds.Built :=
    .pushRepeat (.foldl_push .nil (by decide +kernel)) (.foldl_push .nil (by decide +kernel)) 2
  have hresets : Circuit.Everywhere Instruction.ResetsApart parityRounds := by decide +kernel
  have hmeasured : Circuit.Everywhere Instruction.MeasuresQubits parityRounds := by
    decide +kernel
  have hok : (LayerCircuit.zBasisCircuit parityRounds).isOk = true := by decide +kernel
  refine ⟨hbuilt, hresets, hmeasured, ?_⟩
  cases hout : LayerCircuit.zBasisCircuit parityRounds with
  | error e => simp [hout, Except.isOk, Except.toBool] at hok
  | ok out => exact ⟨out, rfl, zBasisCircuit_sameMeaning hbuilt hresets hmeasured hout⟩

end StabCircuit
