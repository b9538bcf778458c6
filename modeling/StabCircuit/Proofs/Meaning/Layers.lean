import StabCircuit.Proofs.Layer.Disjointness
import StabCircuit.Proofs.Meaning.Circuits

/-!
# From layers to elementary operations

A layer is read as the operations of its entries.  Operations of a disjoint layer
may be performed in any order, so a layer has the same effect however its entries
are sorted and grouped, and neighbours have the same effect as what they fuse to.
-/

namespace StabCircuit

namespace Interaction

/-- The operation of an interaction. -/
def action (i : Interaction) : Action := .controlled i.basisA i.basisB i.a i.b

end Interaction

namespace Layer

open StabCircuit.Action

/-- The operations of rotations by qubit. -/
def rotationActions (entries : List (Nat × Rotation)) : List Action :=
  entries.map fun entry => .rotate entry.2 entry.1

/-- The elementary operations of a layer that is no loop. -/
def actions : Layer → List Action
  | rotation rotations => rotationActions rotations.entries
  | interact interactions => interactions.map Interaction.action
  | swap pairs => pairs.map fun p => .exchange p.1 p.2
  | iswap pairs => pairs.map fun p => .iswap p.1 p.2
  | interactSwap interactions => interactions.flatMap fun i => [i.action, .exchange i.a i.b]
  | reset resets => resets.map fun entry => .prepare entry.1 entry.2
  | measure targets => targets.map fun t => .measure [(t.qubit, t.basis)]
  | product products => products.map fun p => .measure p.factors
  | annotations instructions | feedback instructions | noise instructions =>
    instructions.flatMap Instruction.actions
  | _ => []

/-! ## Rotations -/

theorem rotationActions_append (xs ys : List (Nat × Rotation)) :
    rotationActions (xs ++ ys) = rotationActions xs ++ rotationActions ys := by
  simp [rotationActions]

theorem quietOn_rotate (r : Rotation) (q : Nat) : QuietOn [q] [rotate r q] := by
  simp [QuietOn, isQuiet, qubits]

/-- Rotations of different qubits may be performed in any order. -/
theorem sameEffect_rotationActions {xs ys : List (Nat × Rotation)} (h : xs.Perm ys)
    (hnodup : (xs.map Prod.fst).Nodup) :
    SameEffect (rotationActions xs) (rotationActions ys) := by
  rw [List.map_eq_flatMap] at hnodup
  have hswap := pairwise_swappable hnodup (fun entry _ => quietOn_rotate entry.2 entry.1)
    fun entry _ => (quietOn_rotate entry.2 entry.1).interpretedOn
  exact SameEffect.map_of_perm h (hswap.imp And.left)

theorem rotationActions_alter (m : OrderedMap Nat Rotation) (q : Nat) (r : Rotation) :
    SameEffect
      (rotationActions (m.alter q fun
        | some first => some (first.andThen r)
        | none => some r).entries)
      (rotationActions m.entries ++ [rotate r q]) := by
  obtain ⟨rest, hold, hnew⟩ := m.alter_perm q fun
    | some first => some (first.andThen r)
    | none => some r
  have hold' : SameEffect (rotationActions m.entries) _ :=
    sameEffect_rotationActions (hold.trans List.perm_append_comm) m.nodup_keys
  have hnew' := sameEffect_rotationActions (hnew.trans List.perm_append_comm)
    (OrderedMap.nodup_keys _)
  refine hnew'.trans (SameEffect.trans ?_ (hold'.append_right [rotate r q]).symm)
  cases m.get? q with
  | none => exact .of_eq (by simp [rotationActions])
  | some first =>
    simpa [rotationActions] using
      (sameEffect_rotate_rotate first r q).symm.append_left (rotationActions rest)

theorem rotationActions_foldl_alter (m : OrderedMap Nat Rotation)
    (entries : List (Nat × Rotation)) :
    SameEffect
      (rotationActions (entries.foldl (fun m (q, r) => m.alter q fun
        | some first => some (first.andThen r)
        | none => some r) m).entries)
      (rotationActions m.entries ++ rotationActions entries) := by
  induction entries generalizing m with
  | nil => exact .of_eq (List.append_nil _).symm
  | cons entry entries ih =>
    have hstep := rotationActions_alter m entry.1 entry.2
    have hrest := (ih _).trans (hstep.append_right (rotationActions entries))
    simpa [rotationActions] using hrest

theorem rotationActions_filter (entries : List (Nat × Rotation)) :
    SameEffect (rotationActions (entries.filter fun entry => !entry.2.isIdentity))
      (rotationActions entries) := by
  induction entries with
  | nil => exact .refl _
  | cons entry entries ih =>
    rw [List.filter_cons]
    split
    · exact ih.append_left [rotate entry.2 entry.1]
    · next hidentity =>
      have hr : entry.2 = .identity := by simpa [Rotation.isIdentity] using hidentity
      have hdrop : SameEffect [] [rotate entry.2 entry.1] := by
        rw [hr]
        exact (sameEffect_rotate_identity entry.1).symm
      exact hdrop.append ih

/-- Composed rotations have the effect of the rotations one after another. -/
theorem sameEffect_composeRotations (a b : OrderedMap Nat Rotation) :
    SameEffect (rotation (composeRotations a b)).actions
      ((rotation a).actions ++ (rotation b).actions) :=
  (rotationActions_filter _).trans (rotationActions_foldl_alter a b.entries)

theorem rotationActions_of_identity {entries : List (Nat × Rotation)}
    (h : ∀ entry ∈ entries, entry.2.isIdentity = true) :
    SameEffect (rotationActions entries) [] := by
  have hnone : (entries.filter fun entry => !entry.2.isIdentity) = [] := by
    simpa [List.filter_eq_nil_iff] using h
  have hfilter := rotationActions_filter entries
  rw [hnone] at hfilter
  exact hfilter.symm

/-! ## Rotations before resets -/

theorem foldl_erase_perm (m : OrderedMap Nat Rotation) (resets : List (Nat × Basis)) :
    ∃ removed : List (Nat × Rotation),
      m.entries.Perm ((resets.foldl (fun m entry => m.erase entry.1) m).entries ++ removed) ∧
        ∀ e ∈ removed, e.1 ∈ resets.map Prod.fst := by
  induction resets generalizing m with
  | nil => exact ⟨[], by simp, by simp⟩
  | cons entry resets ih =>
    obtain ⟨removed, hperm, hmem⟩ := ih (m.erase entry.1)
    obtain ⟨rest, hold, hnew⟩ := m.alter_perm entry.1 fun _ => none
    refine ⟨removed ++ (m.get? entry.1).toList.map (Prod.mk entry.1), ?_, ?_⟩
    · rw [← List.append_assoc]
      refine hold.trans (List.perm_append_comm.trans (List.Perm.append_right _ ?_))
      exact hnew.symm.trans hperm
    · intro e he
      rcases List.mem_append.1 he with he | he
      · exact List.mem_cons_of_mem _ (hmem e he)
      · obtain ⟨r, -, rfl⟩ := List.mem_map.1 he
        exact List.mem_cons_self

theorem sameEffect_rotate_resets {resets : List (Nat × Basis)} {q : Nat}
    (hq : q ∈ resets.map Prod.fst) (r : Rotation) :
    SameEffect (rotate r q :: (reset resets).actions) (reset resets).actions := by
  induction resets with
  | nil => simp at hq
  | cons entry resets ih =>
    by_cases hentry : entry.1 = q
    · subst hentry
      exact (sameEffect_rotate_prepare r entry.1 entry.2).append_right (reset resets).actions
    · have hrest : q ∈ resets.map Prod.fst := by
        rcases List.mem_cons.1 hq with rfl | hq
        · exact absurd rfl hentry
        · exact hq
      have hswap : Swappable [rotate r q] [prepare entry.1 entry.2] :=
        swappable_of_disjoint rfl rfl (by simpa [qubits, eq_comm] using hentry)
      calc SameEffect (rotate r q :: (reset (entry :: resets)).actions)
            ([prepare entry.1 entry.2, rotate r q] ++ (reset resets).actions) :=
              hswap.append_right (reset resets).actions
        SameEffect _ ([prepare entry.1 entry.2] ++ (reset resets).actions) :=
              (ih hrest).append_left [prepare entry.1 entry.2]

theorem sameEffect_rotations_resets {entries : List (Nat × Rotation)}
    {resets : List (Nat × Basis)} (h : ∀ e ∈ entries, e.1 ∈ resets.map Prod.fst) :
    SameEffect (rotationActions entries ++ (reset resets).actions) (reset resets).actions := by
  induction entries with
  | nil => exact .refl _
  | cons entry entries ih =>
    rw [List.forall_mem_cons] at h
    have htail := (ih h.2).append_left [rotate entry.2 entry.1]
    exact htail.trans (sameEffect_rotate_resets h.1 entry.2)

/-- Rotations of qubits that are reset next have no effect. -/
theorem sameEffect_rotation_reset (m : OrderedMap Nat Rotation) (resets : List (Nat × Basis)) :
    SameEffect
      ((rotation (resets.foldl (fun m entry => m.erase entry.1) m)).actions ++
        (reset resets).actions)
      ((rotation m).actions ++ (reset resets).actions) := by
  obtain ⟨removed, hperm, hmem⟩ := foldl_erase_perm m resets
  have hsplit := sameEffect_rotationActions hperm m.nodup_keys
  rw [rotationActions_append] at hsplit
  have hdrop := (sameEffect_rotations_resets hmem).append_left
    (rotationActions (resets.foldl (fun m entry => m.erase entry.1) m).entries)
  rw [← List.append_assoc] at hdrop
  exact hdrop.symm.trans (hsplit.append_right (reset resets).actions).symm

/-! ## Interactions and swaps -/

theorem sameEffect_exchange_sorted (a b : Nat) :
    SameEffect [exchange (sortedPair a b).1 (sortedPair a b).2] [exchange a b] := by
  rcases Nat.le_total a b with h | h
  · exact .of_eq (by simp [sortedPair, h])
  · simpa [sortedPair, h] using sameEffect_exchange_comm b a

theorem sameEffect_iswap_sorted (a b : Nat) :
    SameEffect [.iswap (sortedPair a b).1 (sortedPair a b).2] [.iswap a b] := by
  rcases Nat.le_total a b with h | h
  · exact .of_eq (by simp [sortedPair, h])
  · simpa [sortedPair, h] using sameEffect_iswap_comm b a

theorem sameEffect_make (a b : Nat) (P Q : Basis) :
    SameEffect [(Interaction.make a P b Q).action] [controlled P Q a b] := by
  unfold Interaction.make
  split
  · exact .refl _
  · exact sameEffect_controlled_comm Q P b a

theorem sameEffect_exchange_make (a b : Nat) (P Q : Basis) :
    SameEffect [exchange (Interaction.make a P b Q).a (Interaction.make a P b Q).b]
      [exchange a b] := by
  unfold Interaction.make
  split
  · exact .refl _
  · exact sameEffect_exchange_comm b a

theorem quietOn_interaction (i : Interaction) : QuietOn [i.a, i.b] [i.action] := by
  simp [QuietOn, isQuiet, qubits, Interaction.action]

theorem quietOn_exchange (a b : Nat) : QuietOn [a, b] [exchange a b] := by
  simp [QuietOn, isQuiet, qubits]

theorem quietOn_iswap (a b : Nat) : QuietOn [a, b] [.iswap a b] := by
  simp [QuietOn, isQuiet, qubits]

/-- Swaps of the pairs of interactions exchange the qubits of every interaction. -/
theorem sameEffect_swaps_of_samePairs {interactions : List Interaction}
    {swaps : List (Nat × Nat)} (h : samePairs interactions swaps = true)
    (hnodup : (interact interactions).slots.Nodup) :
    SameEffect (swap swaps).actions (interactions.map fun i => exchange i.a i.b) := by
  have hpairs := samePairs_perm h
  have hsorted : SameEffect (swap swaps).actions
      ((swaps.map fun p => sortedPair p.1 p.2).map fun p => exchange p.1 p.2) := by
    rw [List.map_map]
    exact SameEffect.map_congr fun p _ => (sameEffect_exchange_sorted p.1 p.2).symm
  have hslots : ((interactions.map Interaction.pair).flatMap fun p => [p.1, p.2]).Nodup := by
    rw [List.flatMap_map]
    refine (List.Perm.nodup_iff (List.Perm.flatMap_left _ fun i _ => ?_)).1 hnodup
    exact (sortedPair_perm i.a i.b).symm
  have hswap := pairwise_swappable hslots (fun p _ => quietOn_exchange p.1 p.2)
    fun p _ => (quietOn_exchange p.1 p.2).interpretedOn
  have hperm := SameEffect.map_of_perm hpairs (hswap.imp And.left)
  have hback : SameEffect ((interactions.map Interaction.pair).map fun p => exchange p.1 p.2)
      (interactions.map fun i => exchange i.a i.b) := by
    rw [List.map_map]
    exact SameEffect.map_congr fun i _ => sameEffect_exchange_sorted i.a i.b
  exact hsorted.trans (hperm.symm.trans hback)

/-- Interactions with their swaps pair by pair have the effect of the two layers. -/
theorem sameEffect_interactSwap {interactions : List Interaction}
    (hnodup : (interact interactions).slots.Nodup) :
    SameEffect (interactSwap interactions).actions
      ((interact interactions).actions ++ interactions.map fun i => exchange i.a i.b) := by
  have hswap := pairwise_swappable hnodup (fun i _ => quietOn_exchange i.a i.b)
    fun i _ => (quietOn_interaction i).interpretedOn
  have hcollect := SameEffect.collect (hswap.imp And.left)
  simpa [actions, List.map_eq_flatMap] using hcollect

theorem sameEffect_interact_swap {interactions : List Interaction} {swaps : List (Nat × Nat)}
    (h : samePairs interactions swaps = true) (hnodup : (interact interactions).slots.Nodup) :
    SameEffect (interactSwap interactions).actions
      ((interact interactions).actions ++ (swap swaps).actions) :=
  (sameEffect_interactSwap hnodup).trans
    ((sameEffect_swaps_of_samePairs h hnodup).symm.append_left _)

theorem sameEffect_exchangeQubits (i : Interaction) :
    SameEffect [exchange i.a i.b, i.action]
      [i.exchangeQubits.action, exchange i.exchangeQubits.a i.exchangeQubits.b] := by
  have hcomm : SameEffect [exchange i.a i.b, i.action] [exchange i.b i.a, i.action] :=
    (sameEffect_exchange_comm i.a i.b).append_right [i.action]
  have hmove := sameEffect_exchange_controlled i.basisA i.basisB i.b i.a
  have hmake := (sameEffect_make i.b i.a i.basisA i.basisB).append
    (sameEffect_exchange_make i.b i.a i.basisA i.basisB)
  exact hcomm.trans (hmove.trans hmake.symm)

theorem sameEffect_swap_interact {interactions : List Interaction} {swaps : List (Nat × Nat)}
    (h : samePairs interactions swaps = true) (hnodup : (interact interactions).slots.Nodup) :
    SameEffect (interactSwap (interactions.map Interaction.exchangeQubits)).actions
      ((swap swaps).actions ++ (interact interactions).actions) := by
  have hswap := pairwise_swappable hnodup (fun i _ => quietOn_interaction i)
    fun i _ => (quietOn_exchange i.a i.b).interpretedOn
  have hcollect := SameEffect.collect (hswap.imp And.left)
  have heach : SameEffect (interactSwap (interactions.map Interaction.exchangeQubits)).actions
      (interactions.flatMap fun i => [exchange i.a i.b] ++ [i.action]) := by
    simp only [actions, List.flatMap_map]
    exact SameEffect.flatMap fun i _ => (sameEffect_exchangeQubits i).symm
  refine heach.trans (SameEffect.trans ?_
    ((sameEffect_swaps_of_samePairs h hnodup).symm.append_right _))
  simpa [actions, List.map_eq_flatMap] using hcollect

/-! ## Joined layers -/

/-- A joined layer has the effect of its two parts. -/
theorem sameEffect_absorb {l next joined : Layer} (h : l.absorb? next = some joined) :
    SameEffect joined.actions (l.actions ++ next.actions) := by
  obtain ⟨habsorbed, hapart⟩ := absorbed_of_absorb? h
  cases habsorbed with
  | rotation a b =>
    have hperm := a.insertAll_perm b.nodup_keys fun e he hkey =>
      hapart e.1 hkey (List.mem_map.2 ⟨e, he, rfl⟩)
    have hjoined := sameEffect_rotationActions hperm (OrderedMap.nodup_keys _)
    rw [rotationActions_append] at hjoined
    exact hjoined
  | _ => exact .of_eq (by simp [actions])

theorem sameEffect_vacuous {l : Layer} (hl : l.isLoop = false) (h : l.isVacuous = true) :
    SameEffect l.actions [] := by
  cases l with
  | rotation rotations =>
    refine rotationActions_of_identity fun entry hentry => ?_
    have hall : ∀ r ∈ rotations.values, r.isIdentity = true := by
      simpa [isVacuous] using h
    exact hall entry.2 (List.mem_map.2 ⟨entry, hentry, rfl⟩)
  | loop count body => simp [isLoop] at hl
  | _ => exact .of_eq (by simp_all [isVacuous, actions])

end Layer

end StabCircuit
