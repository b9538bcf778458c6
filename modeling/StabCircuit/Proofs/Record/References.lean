import StabCircuit.Proofs.Record.Trace

/-!
# Results and references of a circuit

The results of a circuit are those of its instructions, repeat blocks unrolled.
Its references are resolved in the first iteration of every loop: the body of a
block is visited once, and the results of all its iterations are counted when the
walk goes on behind it.  Appending to a circuit appends to both.
-/

namespace StabCircuit

namespace Instruction

/-- The qubits measured for each result of an instruction. -/
def results (i : Instruction) : List (List Nat) :=
  if i.kind.isMeasurement then i.targetGroups.map (List.filterMap Target.qubit?) else []

/-- The references of an instruction, indices relative to the results before it. -/
def references (i : Instruction) : List RecordEvent := i.targetGroups.flatMap i.pieceReference

theorem length_results (i : Instruction) : i.results.length = i.measurementCount := by
  unfold results measurementCount targetGroups
  cases i.kind <;> simp [GateKind.isMeasurement]

theorem measurementCount_eq_zero {i : Instruction} (h : i.kind.isMeasurement = false) :
    i.measurementCount = 0 := by
  rw [← length_results, results, h]
  rfl

theorem additive_results : Circuit.Additive results := by
  intro last next hlast hnext hfuses
  obtain ⟨g, -, hname, hname', -⟩ := exists_gate_of_fuses hlast hnext hfuses
  have hkind : next.kind = last.kind := by
    rw [kind_of_gate? (gate?_of_name hname), kind_of_gate? (gate?_of_name hname')]
  unfold results
  rw [kind_join, hkind, targetGroups_join hlast hnext hfuses]
  split
  · exact List.map_append
  · rfl

theorem references_join {last next : Instruction} (hlast : last.IsChecked) (hnext : next.IsChecked)
    (h : Circuit.fuses last next = true) :
    (last.join next).references = last.references ++ next.references := by
  obtain ⟨g, -, hname, hname', -⟩ := exists_gate_of_fuses hlast hnext h
  have hpieces : next.pieceReference = last.pieceReference := by
    funext group
    simp [pieceReference, hname, hname']
  rw [references, targetGroups_join hlast hnext h, List.flatMap_append, references, references,
    hpieces]
  rfl

theorem references_of_isClassical_eq_false {i : Instruction}
    (h : ∀ t ∈ i.targets, t.isClassical = false) : i.references = [] :=
  List.flatMap_eq_nil_iff.2 fun _ hgroup =>
    pieceReference_of_isClassical_eq_false fun t ht => h t (mem_of_mem_targetGroups hgroup t ht)

/-- A sound measurement has no classical target. -/
theorem isClassical_of_isMeasurement {i : Instruction} (hi : i.IsSound)
    (h : i.kind.isMeasurement = true) : ∀ t ∈ i.targets, t.isClassical = false := by
  intro t ht
  by_cases hproduct : i.kind = .measureProduct
  · obtain ⟨g, -, -, hkind, hfault⟩ := hi.1.exists_gate
    have hgate : g.kind = .measureProduct := hkind.symm.trans hproduct
    have hfactor := ((targetFault?_product_iff (.inl hgate)).1 hfault).2.2 t ht
    cases t <;> simp [Target.isPauli, Target.isCombiner] at hfactor <;> rfl
  · have hsingle : i.kind = .measure ∨ i.kind = .measureReset := by
      revert h hproduct
      cases i.kind <;> simp [GateKind.isMeasurement]
    obtain ⟨q, hq⟩ := Option.isSome_iff_exists.1 (hi.2 hsingle t ht)
    exact isClassical_of_qubit? hq

/-- A sound measurement makes no reference. -/
theorem references_of_isMeasurement {i : Instruction} (hi : i.IsSound)
    (h : i.kind.isMeasurement = true) : i.references = [] :=
  references_of_isClassical_eq_false (isClassical_of_isMeasurement hi h)

theorem results_of_isPlain {i : Instruction} (h : i.IsPlain) : i.results = [] := by
  obtain ⟨g, qubits, hname, -, -, hsilent⟩ := h
  simp only [Gate.isSilent, Bool.and_eq_true, Bool.not_eq_true'] at hsilent
  rw [results, kind_of_gate? (gate?_of_name hname), hsilent.1.1]
  rfl

theorem references_of_isPlain {i : Instruction} (h : i.IsPlain) : i.references = [] := by
  obtain ⟨g, qubits, -, htargets, -⟩ := h
  refine references_of_isClassical_eq_false fun t ht => ?_
  rw [htargets] at ht
  obtain ⟨q, -, rfl⟩ := List.mem_map.1 ht
  rfl

end Instruction

namespace Circuit

mutual

/-- The references of an operation in the first iteration of every loop, when `seen` results came
before. -/
def operationReferences (seen : Nat) : Operation → List RecordEvent
  | .instruction i => i.references.map (RecordEvent.shifted seen)
  | .block count body => if count = 0 then [] else references seen body

/-- The references of a circuit in the first iteration of every loop, when `seen` results came
before. -/
def references (seen : Nat) : List Operation → List RecordEvent
  | [] => []
  | op :: rest =>
    operationReferences seen op ++ references (seen + operationMeasurements op) rest

end

mutual

theorem length_unrolledOperation_results :
    (op : Operation) → (unrolledOperation Instruction.results op).length = operationMeasurements op
  | .instruction i => Instruction.length_results i
  | .block count body => by
    rw [unrolledOperation, operationMeasurements, ← length_unrolled_results body]
    simp

/-- A circuit has as many results as it counts. -/
theorem length_unrolled_results :
    (c : List Operation) → (unrolled Instruction.results c).length = measurementCount c
  | [] => rfl
  | op :: rest => by
    rw [unrolled, List.length_append, length_unrolledOperation_results op,
      length_unrolled_results rest, measurementCount]

end

theorem measurementCount_append (c d : List Operation) :
    measurementCount (c ++ d) = measurementCount c + measurementCount d := by
  rw [← length_unrolled_results, unrolled_append, List.length_append, length_unrolled_results,
    length_unrolled_results]

theorem references_append (seen : Nat) (c d : List Operation) :
    references seen (c ++ d) = references seen c ++ references (seen + measurementCount c) d := by
  induction c generalizing seen with
  | nil => rfl
  | cons op rest ih =>
    rw [List.cons_append, references, references, ih, measurementCount, List.append_assoc,
      Nat.add_assoc]

theorem references_reverse_cons (seen : Nat) (op : Operation) (done : List Operation) :
    references seen (op :: done).reverse =
      references seen done.reverse ++
        operationReferences (seen + measurementCount done.reverse) op := by
  rw [List.reverse_cons, references_append]
  simp [references]

theorem references_pushReversed {done : List Operation} {i : Instruction}
    (hdone : Everywhere Instruction.IsSound done) (hi : i.IsSound) (seen : Nat) :
    references seen (pushReversed done i).reverse =
      references seen done.reverse ++
        i.references.map (RecordEvent.shifted ↑(seen + measurementCount done.reverse)) := by
  unfold pushReversed
  split
  · next last rest =>
    rw [everywhere_cons, within_instruction] at hdone
    split
    · next hfuses =>
      have hjoin := Instruction.references_join hdone.1.1 hi.1 hfuses
      simp only [Instruction.join] at hjoin
      -- Only measurements move the count, and they refer to nothing.
      have hsame : ∀ count : Nat, i.references.map (RecordEvent.shifted ↑count) =
          i.references.map (RecordEvent.shifted ↑(count + last.measurementCount)) := by
        intro count
        by_cases hmeasurement : i.kind.isMeasurement = true
        · rw [Instruction.references_of_isMeasurement hi hmeasurement]
          rfl
        · obtain ⟨g, -, hname, hname', -⟩ :=
            Instruction.exists_gate_of_fuses hdone.1.1 hi.1 hfuses
          have hkind : last.kind = i.kind := by
            rw [Instruction.kind_of_gate? (Instruction.gate?_of_name hname),
              Instruction.kind_of_gate? (Instruction.gate?_of_name hname')]
          rw [Instruction.measurementCount_eq_zero (by simpa [hkind] using hmeasurement)]
          rfl
      rw [references_reverse_cons, references_reverse_cons, operationReferences,
        operationReferences, hjoin, List.map_append, hsame, List.append_assoc, List.reverse_cons,
        measurementCount_append, Nat.add_assoc]
      rfl
    · rw [references_reverse_cons, operationReferences]
  · rw [references_reverse_cons, operationReferences]

theorem measurementCount_addReversed {done : List Operation}
    (hdone : Everywhere Instruction.IsSound done) {op : Operation}
    (hop : Within Instruction.IsSound op) :
    measurementCount (addReversed done op).reverse =
      measurementCount done.reverse + operationMeasurements op := by
  rw [← length_unrolled_results, unrolled_addReversed Instruction.additive_results
    (hdone.mono fun _ h => h.1) op fun i hi => (hop i hi).1, List.length_append,
    length_unrolled_results, length_unrolledOperation_results]

mutual

theorem references_addReversed {done : List Operation}
    (hdone : Everywhere Instruction.IsSound done) (seen : Nat) :
    (op : Operation) → Within Instruction.IsSound op →
      references seen (addReversed done op).reverse =
        references seen done.reverse ++
          operationReferences (seen + measurementCount done.reverse) op
  | .instruction i, hop => by
    rw [addReversed, operationReferences]
    exact references_pushReversed hdone (within_instruction.1 hop) seen
  | .block 0 body, _ => by
    rw [addReversed, operationReferences]
    simp
  | .block 1 body, hop => by
    rw [addReversed, operationReferences]
    exact references_addAllReversed hdone seen body (within_block.1 hop)
  | .block (n + 2) body, _ => by
    rw [addReversed, references_reverse_cons]

theorem references_addAllReversed {done : List Operation}
    (hdone : Everywhere Instruction.IsSound done) (seen : Nat) :
    (ops : List Operation) → Everywhere Instruction.IsSound ops →
      references seen (addAllReversed done ops).reverse =
        references seen done.reverse ++ references (seen + measurementCount done.reverse) ops
  | [], _ => by
    rw [addAllReversed, references, List.append_nil]
  | op :: rest, hops => by
    rw [everywhere_cons] at hops
    have hnext := everywhere_addReversed Instruction.joinable_isSound hdone op hops.1
    have hcount := measurementCount_addReversed hdone hops.1
    rw [addAllReversed, references_addAllReversed hnext seen rest hops.2,
      references_addReversed hdone seen op hops.1, hcount, List.append_assoc, references,
      Nat.add_assoc]

end

/-! ## What a circuit gains -/

/-- What a circuit has more than another, results and references, when `seen` results came before
the end of the other. -/
structure Adds (seen : Nat) (c c' : Circuit) (more : List (List Nat)) (refs : List RecordEvent) :
    Prop where
  sound : Everywhere Instruction.IsSound c'
  results : unrolled Instruction.results c' = unrolled Instruction.results c ++ more
  references : ∀ start, start + measurementCount c = seen →
    references start c' = references start c ++ refs

theorem Adds.measurementCount {seen : Nat} {c c' : Circuit} {more : List (List Nat)}
    {refs : List RecordEvent} (h : Adds seen c c' more refs) :
    measurementCount c' = Circuit.measurementCount c + more.length := by
  rw [← length_unrolled_results, h.results, List.length_append, length_unrolled_results]

theorem adds_refl {c : Circuit} (hc : Everywhere Instruction.IsSound c) (seen : Nat) :
    Adds seen c c [] [] :=
  ⟨hc, by simp, by simp⟩

theorem Adds.trans {seen : Nat} {c c' c'' : Circuit} {more more' : List (List Nat)}
    {refs refs' : List RecordEvent} (h : Adds seen c c' more refs)
    (h' : Adds (seen + more.length) c' c'' more' refs') :
    Adds seen c c'' (more ++ more') (refs ++ refs') := by
  refine ⟨h'.sound, by rw [h'.results, h.results, List.append_assoc], fun start hstart => ?_⟩
  have hnext : start + Circuit.measurementCount c' = seen + more.length := by
    rw [h.measurementCount, ← hstart, Nat.add_assoc]
  rw [h'.references start hnext, h.references start hstart, List.append_assoc]

theorem adds_push {c : Circuit} (hc : Everywhere Instruction.IsSound c) {i : Instruction}
    (hi : i.IsSound) (seen : Nat) :
    Adds seen c (c.push i) i.results (i.references.map (RecordEvent.shifted seen)) := by
  refine ⟨everywhere_push Instruction.joinable_isSound hc hi, ?_, fun start hstart => ?_⟩
  · exact unrolled_push Instruction.additive_results (hc.mono fun _ h => h.1) hi.1
  · rw [push, references_pushReversed (everywhere_reverse.2 hc) hi, List.reverse_reverse, hstart]

/-- Plain instructions add nothing. -/
theorem adds_push_plain {c : Circuit} (hc : Everywhere Instruction.IsSound c) {i : Instruction}
    (hi : i.IsPlain) (seen : Nat) : Adds seen c (c.push i) [] [] := by
  have hadds := adds_push hc hi.isSound seen
  rw [Instruction.results_of_isPlain hi, Instruction.references_of_isPlain hi] at hadds
  exact hadds

/-- Instructions without results add their references. -/
theorem adds_foldl_push {is : List Instruction} (his : ∀ i ∈ is, i.IsSound)
    (hresults : ∀ i ∈ is, i.results = []) {c : Circuit} (hc : Everywhere Instruction.IsSound c)
    (seen : Nat) :
    Adds seen c (is.foldl push c) []
      (is.flatMap fun i => i.references.map (RecordEvent.shifted seen)) := by
  induction is generalizing c with
  | nil => exact adds_refl hc seen
  | cons i is ih =>
    rw [List.forall_mem_cons] at his hresults
    have hfirst := adds_push hc his.1 seen
    rw [hresults.1] at hfirst
    exact hfirst.trans (ih his.2 hresults.2 hfirst.sound)

/-- A repeated body adds its results as often as it runs and its references once. -/
theorem adds_pushRepeat {c body : Circuit} (hc : Everywhere Instruction.IsSound c) {seen : Nat}
    {more : List (List Nat)} {refs : List RecordEvent} (hbody : Adds seen [] body more refs)
    (count : Nat) :
    Adds seen c (c.pushRepeat (count + 1) body) (List.replicate (count + 1) more).flatten refs := by
  have hwithin : Within Instruction.IsSound (.block (count + 1) body) :=
    within_block.2 hbody.sound
  refine ⟨everywhere_pushOperation Instruction.joinable_isSound hc hwithin, ?_, ?_⟩
  · rw [pushRepeat, unrolled_pushOperation Instruction.additive_results (hc.mono fun _ h => h.1)
      fun i hi => (hwithin i hi).1, unrolledOperation, hbody.results]
    rfl
  · intro start hstart
    rw [pushRepeat, pushOperation, references_addReversed (everywhere_reverse.2 hc) start _ hwithin,
      List.reverse_reverse, hstart, operationReferences, if_neg (Nat.succ_ne_zero count),
      hbody.references seen rfl]
    rfl

end Circuit

end StabCircuit
