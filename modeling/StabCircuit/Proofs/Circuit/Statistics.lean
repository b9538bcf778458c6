import Mathlib.Algebra.BigOperators.Ring.List
import StabCircuit.Proofs.Circuit.Flattening
import StabCircuit.Proofs.Circuit.RoundTrip
import StabCircuit.Proofs.Record.References
import StabCircuit.Proofs.Support.OrderedMaps

/-!
# Statistics of flattened circuits

The statistics of a circuit are computed with every block weighted by its count.  They
are sums of what single instructions count, and what an instruction counts is the sum of
what its parts count when it came about by merging.  So a circuit has the statistics of
its flattened form, in which instructions of successive iterations may have merged.
-/

namespace StabCircuit

namespace Instruction

open Circuit

/-- What an instruction shows for the count of step boundaries. -/
def boundaries (i : Instruction) : List Unit := if i.isTick then [()] else []

/-- The amounts that an instruction counts under a name. -/
def amounts (name : String) (i : Instruction) : List Nat :=
  ((instructionCounts i).filter fun entry => entry.1 == name).map Prod.snd

/-- The names under which an instruction is counted. -/
def countedNames (i : Instruction) : List String := (instructionCounts i).map Prod.fst

theorem amounts_ne_nil_iff {name : String} {i : Instruction} :
    i.amounts name ≠ [] ↔ name ∈ i.countedNames := by
  rw [amounts, countedNames, Ne, List.map_eq_nil_iff, List.filter_eq_nil_iff, List.mem_map]
  push Not
  simp only [beq_iff_eq]

/-! ## Merged instructions -/

theorem additive_qubits : Additive qubits := fun _ _ _ _ _ => List.filterMap_append

/-- Step boundaries do not merge. -/
theorem additive_boundaries : Additive boundaries := by
  intro last next hlast hnext hfuses
  obtain ⟨g, hfusable, hname, hname', -⟩ := exists_gate_of_fuses hlast hnext hfuses
  have htick : (g.name == Gate.tick.name) = false := by
    rw [beq_eq_false_iff_ne]
    intro hsame
    rw [Gate.name_injective hsame] at hfusable
    cases hfusable
  have hjoin : (last.join next).isTick = false := by rw [isTick, join, hname, htick]
  have hlastTick : last.isTick = false := by rw [isTick, hname, htick]
  have hnextTick : next.isTick = false := by rw [isTick, hname', htick]
  rw [boundaries, boundaries, boundaries, hjoin, hlastTick, hnextTick]
  rfl

/-- Merged instructions are counted one after another, or as one under their common name. -/
theorem instructionCounts_join {last next : Instruction} (hlast : last.IsChecked)
    (hnext : next.IsChecked) (h : fuses last next = true) :
    instructionCounts (last.join next) = instructionCounts last ++ instructionCounts next ∨
      ∃ m n, instructionCounts last = [(last.name, m)] ∧
        instructionCounts next = [(last.name, n)] ∧
        instructionCounts (last.join next) = [(last.name, m + n)] := by
  obtain ⟨g, hfusable, hname, hname', hs, ht, -⟩ := exists_gate_of_fuses hlast hnext h
  have hkind : last.kind = g.kind := kind_of_gate? (gate?_of_name hname)
  have hkind' : next.kind = g.kind := kind_of_gate? (gate?_of_name hname')
  have hsame : next.name = last.name := hname'.trans hname.symm
  have hgroups := targetGroups_join hlast hnext h
  simp only [targetGroups, kind_join, hkind, hkind'] at hgroups
  unfold instructionCounts
  rw [kind_join, hkind, hkind', hsame]
  cases hg : g.kind <;> simp only [hg] at hgroups ⊢
  case metadata => simp [Gate.isFusable, hg] at hfusable
  case tick => simp [Gate.isFusable, hg] at hfusable
  case noiseProduct => simp [Gate.isFusable, hg] at hfusable
  case measureProduct =>
    left
    rw [hgroups, List.map_append]
  case clifford2 =>
    left
    rw [hgroups, List.map_append]
    rfl
  case noise2 =>
    have hs' : last.targets.length % 2 = 0 := by simpa [targetFault?, hg] using hs
    right
    refine ⟨_, _, rfl, rfl, ?_⟩
    have hhalf : (last.join next).targets.length / 2 =
        last.targets.length / 2 + next.targets.length / 2 := by
      rw [join, List.length_append]
      omega
    rw [hhalf]
    rfl
  all_goals
    right
    refine ⟨_, _, rfl, rfl, ?_⟩
    rw [join, List.length_append]

end Instruction

/-! ## Amounts counted under a name -/

/-- Amounts that change a counter alike: equal sums, and amounts on both sides or on none. -/
structure SameTotal (xs ys : List Nat) : Prop where
  sum : xs.sum = ys.sum
  empty : xs = [] ↔ ys = []

theorem compositional_sameTotal : Circuit.Compositional SameTotal where
  refl _ := ⟨rfl, Iff.rfl⟩
  trans h h' := ⟨h.sum.trans h'.sum, h.empty.trans h'.empty⟩
  append h h' := by
    refine ⟨by rw [List.sum_append, List.sum_append, h.sum, h'.sum], ?_⟩
    rw [List.append_eq_nil_iff, List.append_eq_nil_iff, h.empty, h'.empty]

/-- Merging keeps the sum of what is counted under a name. -/
theorem Instruction.related_amounts (name : String) :
    Circuit.Related SameTotal (Instruction.amounts name) := by
  intro last next hlast hnext hfuses
  obtain hcounts | ⟨m, n, hm, hn, hmn⟩ := instructionCounts_join hlast hnext hfuses
  · rw [amounts, amounts, amounts, hcounts, List.filter_append, List.map_append]
    exact compositional_sameTotal.refl _
  · rw [amounts, amounts, amounts, hm, hn, hmn]
    by_cases hname : last.name = name
    · refine ⟨?_, ?_⟩ <;> simp [hname]
    · refine ⟨?_, ?_⟩ <;> simp [hname]

/-- The value of a counter after amounts were added, none before the first one. -/
def raised (old : Option Nat) (xs : List Nat) : Option Nat :=
  if xs = [] then old else some (old.getD 0 + xs.sum)

theorem raised_congr {xs ys : List Nat} (h : SameTotal xs ys) (old : Option Nat) :
    raised old xs = raised old ys := by
  rw [raised, raised, h.sum, if_congr h.empty rfl rfl]

theorem raised_append (old : Option Nat) (xs ys : List Nat) :
    raised old (xs ++ ys) = raised (raised old xs) ys := by
  by_cases hx : xs = []
  · rw [hx, List.nil_append, raised, raised, raised, if_pos rfl]
  · by_cases hy : ys = []
    · rw [hy, List.append_nil, raised, raised, if_pos rfl]
    · have hxy : xs ++ ys ≠ [] := fun h => hx (List.append_eq_nil_iff.1 h).1
      rw [raised, raised, raised, if_neg hxy, if_neg hx, if_neg hy, List.sum_append,
        Option.getD_some, Nat.add_assoc]

theorem isSome_raised {xs : List Nat} : (raised none xs).isSome = true ↔ xs ≠ [] := by
  by_cases hx : xs = []
  · simp [raised, hx]
  · simp [raised, hx]

/-- Counting with a weight for every iteration is counting the iterations. -/
theorem sameTotal_replicate {count : Nat} (hcount : count ≠ 0) (weight : Nat) (xs : List Nat) :
    SameTotal (xs.map (· * (weight * count)))
      ((List.replicate count xs).flatten.map (· * weight)) := by
  constructor
  · rw [List.sum_map_mul_right, List.sum_map_mul_right, List.map_id', List.map_id',
      List.sum_flatten, List.map_replicate, List.sum_replicate_nat, mul_comm count, mul_assoc,
      mul_comm weight]
  · simp [List.flatten_eq_nil_iff, List.mem_replicate, hcount]

namespace Circuit

/-! ## Statistics of unrolled circuits -/

mutual

theorem length_unrolledOperation_boundaries : (op : Operation) →
    (unrolledOperation Instruction.boundaries op).length = operationTicks op
  | .instruction i => by
    rw [unrolledOperation, operationTicks, Instruction.boundaries]
    split <;> rfl
  | .block count body => by
    rw [unrolledOperation, operationTicks, ← length_unrolled_boundaries body]
    simp

/-- A circuit has as many step boundaries as it counts. -/
theorem length_unrolled_boundaries : (c : List Operation) →
    (unrolled Instruction.boundaries c).length = tickCount c
  | [] => rfl
  | op :: rest => by
    rw [unrolled, List.length_append, length_unrolledOperation_boundaries op,
      length_unrolled_boundaries rest, tickCount]

end

/-- What the instructions of a settled circuit show, the circuit shows. -/
theorem mem_flatMap_instructions {β : Type} {f : Instruction → List β} {c : Circuit}
    (hc : Settled c) {x : β} : x ∈ (instructions c).flatMap f ↔ x ∈ unrolled f c := by
  rw [unrolled_eq_flatMap f, List.mem_flatMap, List.mem_flatMap]
  constructor
  · rintro ⟨i, hi, hx⟩
    exact ⟨i, mem_unrolled_of_settled c hc hi, hx⟩
  · rintro ⟨i, hi, hx⟩
    exact ⟨i, mem_instructions_of_mem_unrolled c hi, hx⟩

theorem unrolled_amounts_ne_nil_iff {name : String} {c : Circuit} :
    unrolled (Instruction.amounts name) c ≠ [] ↔ name ∈ unrolled Instruction.countedNames c := by
  rw [unrolled_eq_flatMap (Instruction.amounts name),
    unrolled_eq_flatMap Instruction.countedNames, Ne, List.flatMap_eq_nil_iff, List.mem_flatMap]
  push Not
  simp only [← Instruction.amounts_ne_nil_iff]

theorem get?_foldl_addCount (counts : OrderedMap String Nat) (weight : Nat) (name : String)
    (entries : List (String × Nat)) :
    (entries.foldl (fun counts (name, n) => addCount counts name (n * weight)) counts).get? name =
      raised (counts.get? name)
        (((entries.filter fun entry => entry.1 == name).map Prod.snd).map (· * weight)) := by
  induction entries generalizing counts with
  | nil => rfl
  | cons entry rest ih =>
    have hone : (addCount counts entry.1 (entry.2 * weight)).get? name =
        raised (counts.get? name)
          ((([entry].filter fun entry => entry.1 == name).map Prod.snd).map (· * weight)) := by
      rw [addCount, OrderedMap.get?_alter]
      by_cases hname : entry.1 = name
      · simp [hname, raised]
      · simp [hname, raised]
    rw [List.foldl_cons, ih, hone, ← raised_append, ← List.map_append, ← List.map_append,
      ← List.filter_append, List.singleton_append]

mutual

/-- Counting adds what the unrolled circuit counts under a name. -/
theorem get?_countAll (name : String) : (c : List Operation) → Settled c → (weight : Nat) →
    (counts : OrderedMap String Nat) →
      (countAll weight counts c).get? name =
        raised (counts.get? name) ((unrolled (Instruction.amounts name) c).map (· * weight))
  | [], _, _, _ => rfl
  | op :: rest, hc, weight, counts => by
    rw [countAll, get?_countAll name rest hc.2.2, get?_countOperation name op hc.1, unrolled,
      List.map_append, raised_append]

theorem get?_countOperation (name : String) : (op : Operation) → SettledOperation op →
    (weight : Nat) → (counts : OrderedMap String Nat) →
      (countOperation weight counts op).get? name =
        raised (counts.get? name)
          ((unrolledOperation (Instruction.amounts name) op).map (· * weight))
  | .instruction i, _, weight, counts => get?_foldl_addCount counts weight name _
  | .block count body, hop, weight, counts => by
    have hcount : count ≠ 0 := by
      have := hop.1
      omega
    rw [countOperation, get?_countAll name body hop.2, unrolledOperation,
      raised_congr (sameTotal_replicate hcount weight _)]

end

theorem get?_gateCounts {c : Circuit} (hc : Settled c) (name : String) :
    (gateCounts c).get? name = raised none (unrolled (Instruction.amounts name) c) := by
  rw [gateCounts, get?_countAll name c hc]
  simp only [Nat.mul_one, List.map_id']
  rfl

/-- The names that a settled circuit uses are the keys of its counts. -/
theorem gatesUsed_eq_keys {c : Circuit} (hc : Settled c) :
    (gatesUsed c).toList = (gateCounts c).keys := by
  apply OrderedMap.keys_eq_of_mem_iff
  intro name
  calc name ∈ (gatesUsed c).keys
      ↔ name ∈ (instructions c).flatMap Instruction.countedNames := OrderedSet.mem_keys_ofList
    _ ↔ name ∈ unrolled Instruction.countedNames c := mem_flatMap_instructions hc
    _ ↔ unrolled (Instruction.amounts name) c ≠ [] := unrolled_amounts_ne_nil_iff.symm
    _ ↔ ((gateCounts c).get? name).isSome = true := by rw [get?_gateCounts hc, isSome_raised]
    _ ↔ name ∈ (gateCounts c).keys := OrderedMap.mem_keys_iff.symm

/-! ## Statistics of flattened circuits -/

/-- Circuits with the same statistics. -/
structure SameStatistics (c d : Circuit) : Prop where
  measurements : measurementCount c = measurementCount d
  ticks : tickCount c = tickCount d
  counts : gateCounts c = gateCounts d
  gates : gatesUsed c = gatesUsed d
  qubits : Circuit.qubits c = Circuit.qubits d

theorem gateCounts_flattened {c : Circuit} (hchecked : Everywhere Instruction.IsChecked c)
    (hsettled : Settled c) : gateCounts c.flattened = gateCounts c := by
  apply OrderedMap.eq_of_get?
  intro name
  have hsame := related_flattened compositional_sameTotal (Instruction.related_amounts name)
    hchecked
  rw [get?_gateCounts (settled_flattened c), get?_gateCounts hsettled, raised_congr hsame]

/-- Flattening keeps the statistics of a settled circuit. -/
theorem sameStatistics_flattened {c : Circuit} (hchecked : Everywhere Instruction.IsChecked c)
    (hsettled : Settled c) : SameStatistics c.flattened c where
  measurements := by
    rw [← length_unrolled_results, ← length_unrolled_results,
      unrolled_flattened Instruction.additive_results hchecked]
  ticks := by
    rw [← length_unrolled_boundaries, ← length_unrolled_boundaries,
      unrolled_flattened Instruction.additive_boundaries hchecked]
  counts := gateCounts_flattened hchecked hsettled
  gates := by
    apply OrderedSet.eq_of_mem_iff
    intro name
    have hkeys : (gatesUsed c.flattened).toList = (gatesUsed c).toList := by
      rw [gatesUsed_eq_keys (settled_flattened c), gateCounts_flattened hchecked hsettled,
        gatesUsed_eq_keys hsettled]
    exact iff_of_eq (congrArg (name ∈ ·) hkeys)
  qubits := by
    apply OrderedSet.ofList_eq_of_mem_iff
    intro q
    rw [mem_flatMap_instructions (settled_flattened c), mem_flatMap_instructions hsettled,
      unrolled_flattened Instruction.additive_qubits hchecked]

theorem Assembled.append {c d : Circuit} {name : String} {targets : List Target}
    {args : List Scalar} (hc : Assembled c) (h : c.append name targets args = .ok d) :
    Assembled d := by
  obtain ⟨i, hi, rfl⟩ := map_eq_ok.1 h
  exact .push hc hi

/-- A circuit put together from made instructions is settled, its flattened form is settled and
flat and stays as it is when it is flattened again, and the two have the same statistics, where
the names used are those with a count. -/
theorem flattened_statistics {c : Circuit} (h : Assembled c) :
    Settled c ∧
      (Settled c.flattened ∧ IsFlat c.flattened ∧ c.flattened.flattened = c.flattened) ∧
      SameStatistics c.flattened c ∧ (gatesUsed c).toList = (gateCounts c).keys := by
  have hsettled := h.built.settled
  have hfixed := flattened_of_settled (settled_flattened c) (isFlat_flattened c)
  exact ⟨hsettled, ⟨settled_flattened c, isFlat_flattened c, hfixed⟩,
    sameStatistics_flattened h.built.checked hsettled, gatesUsed_eq_keys hsettled⟩

/-- Rounds that begin and end with a measurement, with feedback in between. -/
def seamRound : Circuit :=
  ((Circuit.push [] (.onQubits (.measure .z) [0] [])).extend feedbackBlock).push
    (.onQubits (.measure .z) [1, 2] [])

/-- Measurements that merge across the iterations of nested blocks. -/
def seamRounds : Circuit :=
  ((Circuit.push [] (.onQubits (.measure .z) [3] [])).pushRepeat 2
    (seamRound.pushRepeat 3 seamRound)).extend (seamRound.repeated 2)

theorem flattened_statistics_seamRounds :
    Assembled seamRounds ∧ Settled seamRounds ∧
      (Settled seamRounds.flattened ∧ IsFlat seamRounds.flattened ∧
        seamRounds.flattened.flattened = seamRounds.flattened) ∧
      SameStatistics seamRounds.flattened seamRounds ∧
      (gatesUsed seamRounds).toList = (gateCounts seamRounds).keys := by
  have hfeedback : Assembled feedbackBlock :=
    .push (.tick (.push .nil (show Instruction.IsChecked _ by decide +kernel)))
      (show Instruction.IsChecked _ by decide +kernel)
  have hround : Assembled seamRound :=
    .push (.extend (.push .nil (show Instruction.IsChecked _ by decide +kernel)) hfeedback)
      (show Instruction.IsChecked _ by decide +kernel)
  have hassembled : Assembled seamRounds :=
    .extend (.pushRepeat (.push .nil (show Instruction.IsChecked _ by decide +kernel))
      (.pushRepeat hround hround 3) 2) (.repeated hround 2)
  exact ⟨hassembled, flattened_statistics hassembled⟩

end Circuit

end StabCircuit
