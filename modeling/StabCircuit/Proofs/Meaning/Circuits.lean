import StabCircuit.Proofs.Circuit.Pieces
import StabCircuit.Proofs.Meaning.Actions

/-!
# From circuits to elementary operations

Every piece of an instruction is a list of elementary operations.  The reading is
piece by piece, so it does not see how instructions are joined.
-/

namespace StabCircuit

/-- A factor of a product, as qubit and basis. -/
def Target.factor? : Target → Option (Nat × Basis)
  | pauli b q => some (q, b)
  | _ => none

namespace Instruction

/-- The operations on a pair of qubits. -/
def onTwo (f : Nat → Nat → List Action) : List Nat → List Action
  | [a, b] => f a b
  | _ => []

/-- The elementary operations of a piece of an instruction.  Annotations have none; classically
controlled pieces, error channels and gates without a map of their own stay uninterpreted. -/
def pieceActions (g : Gate) (numbers : List Int) (group : List Target) : List Action :=
  let qubits := group.filterMap Target.qubit?
  if g.kind.isMetadata then []
  else if group.any Target.isClassical then [.uninterpreted g numbers group]
  else match g with
    | .rotate r => qubits.map (.rotate r)
    | .reset b => qubits.map fun q => .prepare q b
    | .measure b => [.measure (qubits.map fun q => (q, b))]
    | .measureReset b =>
      .measure (qubits.map fun q => (q, b)) :: qubits.map fun q => .prepare q b
    | .measureProduct => [.measure (group.filterMap Target.factor?)]
    | .controlled P Q => onTwo (fun a b => [.controlled P Q a b]) qubits
    | .swap => onTwo (fun a b => [.exchange a b]) qubits
    | .iswap => onTwo (fun a b => [.iswap a b]) qubits
    | .czSwap => onTwo (fun a b => [.controlled .z .z a b, .exchange a b]) qubits
    | .controlledSwap => onTwo (fun a b => [.controlled .z .x a b, .exchange a b]) qubits
    | .swapControlled => onTwo (fun a b => [.exchange a b, .controlled .z .x a b]) qubits
    | _ => [.uninterpreted g numbers group]

/-- The elementary operations of an instruction. -/
def actions (i : Instruction) : List Action :=
  match i.gate? with
  | none => []
  | some g => i.targetGroups.flatMap (pieceActions g (i.args.map Scalar.position))

theorem actions_eq_shown (i : Instruction) : i.actions = i.shown pieceActions := rfl

theorem actions_of_gate? {i : Instruction} {g : Gate} (h : i.gate? = some g) :
    i.actions = i.targetGroups.flatMap (pieceActions g (i.args.map Scalar.position)) := by
  rw [actions_eq_shown, shown_of_gate? pieceActions h]

/-- A gate of one target each acts target by target. -/
theorem actions_of_single {i : Instruction} {g : Gate} (hg : i.gate? = some g)
    (h : g.kind = .clifford1 ∨ g.kind = .reset ∨ g.kind = .measure ∨ g.kind = .measureReset) :
    i.actions = i.targets.flatMap fun t => pieceActions g (i.args.map Scalar.position) [t] := by
  apply shown_of_isSingle pieceActions hg
  rcases h with h | h | h | h <;> rw [h] <;> rfl

theorem actions_single {g : Gate} (targets : List Target) (args : List Scalar)
    (h : g.kind = .clifford1 ∨ g.kind = .reset ∨ g.kind = .measure ∨ g.kind = .measureReset) :
    actions { name := g.name, targets, args } =
      targets.flatMap fun t => pieceActions g (args.map Scalar.position) [t] :=
  actions_of_single (gate?_of_name rfl) h

theorem actions_pairs {g : Gate} (h : g.kind = .clifford2) (pairs : List (Nat × Nat)) :
    actions { name := g.name
              targets := pairs.flatMap fun p => [.qubit p.1, .qubit p.2]
              args := [] } =
      pairs.flatMap fun p => pieceActions g [] [.qubit p.1, .qubit p.2] :=
  shown_of_isPairwise pieceActions (by rw [h]; rfl) pairs []

theorem additive_actions : Circuit.Additive actions := additive_shown pieceActions

theorem actions_eq_nil_of_isMetadata {i : Instruction} (h : i.kind.isMetadata = true) :
    i.actions = [] := by
  unfold actions
  split
  · rfl
  · next g hgate =>
    have hkind : g.kind.isMetadata = true := by rwa [← kind_of_gate? hgate]
    simp [pieceActions, hkind]

theorem actions_tick : Instruction.tick.actions = [] := by
  refine actions_eq_nil_of_isMetadata ?_
  rw [kind_of_gate? (@gate?_of_name Instruction.tick .tick rfl)]
  rfl

end Instruction

namespace Circuit

/-- The elementary operations of a circuit, repeat blocks unrolled. -/
def actions (c : Circuit) : List Action := unrolled Instruction.actions c

/-- The linear map of a circuit for given outcomes of its results. -/
def meaning (I : Interpretation) (outcome : Nat → Bool) (c : Circuit) : StateMap :=
  Action.meaning I outcome 0 c.actions

/-- The same number of results, and the same map whatever the outcomes are. -/
structure SameMeaning (c d : Circuit) : Prop where
  results : Action.resultCount c.actions = Action.resultCount d.actions
  map : ∀ I outcome, c.meaning I outcome = d.meaning I outcome

theorem SameMeaning.of_sameEffect {c d : Circuit}
    (h : Action.SameEffect c.actions d.actions) : SameMeaning c d :=
  ⟨h.results, fun I outcome => h.map I outcome 0⟩

end Circuit

end StabCircuit
