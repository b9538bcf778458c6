import StabCircuit.Proofs.Builder.Growth
import StabCircuit.Proofs.Meaning.Circuits
import StabCircuit.Proofs.Record.Resolution

/-!
# What calls emit

A call that succeeds has appended instructions that are known from its arguments, the
layout and what its keys are bound to, and has bound fresh keys.  Calls one after
another emit one after another.
-/

namespace StabCircuit

namespace Build

/-- A builder has gone on from another: it has appended instructions and bound keys, some of them to
results. -/
structure Emits (b b' : Builder) (is : List Instruction) (keys measured : List Key) : Prop where
  layout : b'.layout = b.layout
  circuit : b'.circuit = is.foldl Circuit.push b.circuit
  tracker : b.tracker.Extends b'.tracker keys measured

variable {b b' b'' : Builder} {is js : List Instruction} {keys keys' measured measured' : List Key}

theorem Emits.trans (h : Emits b b' is keys measured) (h' : Emits b' b'' js keys' measured') :
    Emits b b'' (is ++ js) (keys ++ keys') (measured ++ measured') := by
  constructor
  · rw [h'.layout, h.layout]
  · rw [h'.circuit, h.circuit, List.foldl_append]
  · exact h.tracker.trans h'.tracker

theorem emits_pushes (b : Builder) (is : List Instruction) :
    Emits b { b with circuit := is.foldl Circuit.push b.circuit } is [] [] :=
  ⟨rfl, rfl, Tracker.extends_refl _⟩

/-! ## Instructions over qubits -/

theorem make_of_isSingle {g : Gate} (h : g.kind.isSingle = true) (targets : List Target) :
    Instruction.make g.name targets [] = .ok ⟨g.name, targets, []⟩ := by
  simp [Instruction.make, Instruction.targetFault?_of_isSingle h]

/-- The instruction of a gate over qubits in canonical order; no qubits write nothing. -/
def sortedInstruction (layout : OrderedMap Coord Nat) (g : Gate) (qubits : List Coord) :
    List Instruction :=
  if Coord.sort qubits = [] then []
  else [.onQubits g ((Coord.sort qubits).map (indexIn layout)) []]

variable {layout : OrderedMap Coord Nat} {g : Gate} {qubits : List Coord}

/-- A gate of one target each performs its operation qubit by qubit. -/
theorem actions_sortedInstruction
    (hg : g.kind = .clifford1 ∨ g.kind = .reset ∨ g.kind = .measure ∨ g.kind = .measureReset)
    {f : Nat → Action} (hf : ∀ q, Instruction.pieceActions g [] [.qubit q] = [f q]) :
    (sortedInstruction layout g qubits).flatMap Instruction.actions =
      (Coord.sort qubits).map fun q => f (indexIn layout q) := by
  unfold sortedInstruction
  split
  · next hnone => rw [hnone, List.flatMap_nil, List.map_nil]
  · have hsingle := Instruction.actions_single
      (((Coord.sort qubits).map (indexIn layout)).map .qubit) [] hg
    rw [List.flatMap_map, List.flatMap_map, List.map_nil, funext fun q => hf (indexIn layout q)]
      at hsingle
    rw [List.flatMap_singleton, Instruction.onQubits, hsingle, List.map_eq_flatMap]

/-- A gate without results has no events. -/
theorem events_sortedInstruction_reset (basis : Basis) :
    (sortedInstruction layout (.reset basis) qubits).flatMap (Instruction.events false) = [] := by
  unfold sortedInstruction
  split
  · rfl
  · rw [List.flatMap_singleton]
    exact Instruction.events_of_isPlain ⟨.reset basis, _, rfl, rfl, rfl, rfl⟩

/-- A measurement has a result for every qubit. -/
theorem events_sortedInstruction_measure (basis : Basis) :
    (sortedInstruction layout (.measure basis) qubits).flatMap (Instruction.events false) =
      (Coord.sort qubits).map fun q => .result [indexIn layout q] := by
  unfold sortedInstruction
  split
  · next hnone => rw [hnone, List.flatMap_nil, List.map_nil]
  · have hmake := @make_of_isSingle (.measure basis) rfl
      (((Coord.sort qubits).map (indexIn layout)).map .qubit)
    obtain ⟨hsound, hkind, hresults⟩ := Instruction.results_measure hmake
    rw [List.flatMap_singleton, Instruction.onQubits,
      Instruction.events_of_isMeasurement hsound hkind, hresults, List.map_map, List.map_map]
    rfl

/-! ## Calls -/

theorem emits_tick (h : Gives tick b () b') : Emits b b' [.tick] [] [] := by
  obtain rfl := gives_modify.1 h
  exact emits_pushes b [.tick]

theorem emits_reset {basis : Basis} (h : Gives (gate (Gate.reset basis).name qubits []) b () b') :
    Emits b b' (sortedInstruction b.layout (.reset basis) qubits) [] [] := by
  unfold gate at h
  obtain ⟨g, mid, hask, h⟩ := gives_bind.1 h
  obtain ⟨hg, rfl⟩ := gives_ask.1 hask
  obtain rfl : Gate.reset basis = g := Except.ok.inj ((Gate.lookup_name _).symm.trans hg)
  dsimp only [Gate.kind] at h
  unfold sortedInstruction
  split at h
  · next hempty =>
    obtain ⟨-, rfl⟩ := gives_pure.1 h
    rw [if_pos (List.isEmpty_iff.1 hempty)]
    exact emits_pushes b []
  · next hsome =>
    obtain ⟨indices, mid, hask, h⟩ := gives_bind.1 h
    obtain ⟨hindices, rfl⟩ := gives_ask.1 hask
    obtain ⟨i, hi, rfl⟩ := gives_append.1 h
    obtain ⟨-, -, rfl⟩ := Instruction.of_make_name hi
    rw [if_neg fun hnone => hsome (List.isEmpty_iff.2 hnone), ← eq_map_indexIn hindices]
    exact emits_pushes b [_]

/-- The keys of qubits in a layer, in canonical order. -/
def sortedKeys (qubits : List Coord) (keyOf : Coord → Key) (layer : String) : List Key :=
  (Coord.sort qubits).map fun q => .atLayer (keyOf q) layer

theorem emits_measure {basis : Basis} {keyOf : Coord → Key} {layer : String}
    (h : Gives (measure qubits basis keyOf layer) b () b') :
    Emits b b' (sortedInstruction b.layout (.measure basis) qubits)
      (sortedKeys qubits keyOf layer) (sortedKeys qubits keyOf layer) := by
  unfold sortedInstruction sortedKeys
  by_cases hnone : Coord.sort qubits = []
  · obtain rfl : b = b' := by
      unfold measure at h
      rw [hnone] at h
      exact (gives_pure.1 h).2
    rw [if_pos hnone, hnone]
    exact emits_pushes b []
  · rcases measure_spec h with ⟨hempty, -⟩ | ⟨i, t, hi, ht, rfl⟩
    · exact absurd hempty hnone
    · obtain ⟨-, -, rfl⟩ := Instruction.of_make_name hi
      rw [if_neg hnone]
      exact ⟨rfl, rfl, Tracker.extends_recordAll ht⟩

/-- A key of new results is bound to its result. -/
theorem find?_of_measured {t t' : Tracker} {key : Key} (h : t.Extends t' keys keys)
    (hkey : key ∈ keys) : t'.find? key = some (some [t.count + keys.idxOf key]) := by
  rw [h.bound key hkey, Tracker.placed, if_pos hkey]

theorem recordTargets_singleton {t : Tracker} {key : Key} {index : Nat} {targets : List Target}
    (hkey : t.find? key = some (some [index]))
    (h : t.recordTargets [key] = .ok targets) :
    targets = [.record (index - t.count : Int)] := by
  have hindices : t.indices [key] = .ok [index] := by
    rw [Tracker.indices, Tracker.toggleKeys, Tracker.indicesOf, hkey]
    rfl
  obtain ⟨indices, hok, h⟩ := bind_eq_ok.1 h
  obtain rfl : [index] = indices := Except.ok.inj (hindices.symm.trans hok)
  refine eq_map_of_mapM (g := fun (index : Nat) => .record (index - t.count : Int)) ?_ h
  intro other hother target htarget
  rw [List.mem_singleton.1 hother] at htarget ⊢
  exact (Tracker.targetOf_eq_ok.1 htarget).2.2

/-- A Pauli controlled by the one result that a key is bound to. -/
theorem gives_classicalPauli {key : Key} {q : Coord} {basis : Basis} {index : Nat}
    (hkey : b.tracker.find? key = some (some [index]))
    (h : Gives (classicalPaulis [key] [q] basis) b () b') :
    { b with circuit := [controlledPauli basis (.record (index - b.tracker.count : Int))
        (indexIn b.layout q)].foldl Circuit.push b.circuit } = b' := by
  obtain ⟨records, hrecords, -, rfl⟩ := classicalPaulis_spec h
  obtain rfl := recordTargets_singleton hkey hrecords
  have hsort : Coord.sort [q] = [q] := List.mergeSort_singleton q
  rw [hsort]
  rfl

end Build

end StabCircuit
