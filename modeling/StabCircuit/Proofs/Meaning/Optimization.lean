import StabCircuit.Pass.Pipeline
import StabCircuit.Proofs.Layer.Readings
import StabCircuit.Proofs.Meaning.Splitting

/-!
# Local optimization keeps the meaning

Reading circuits and layers as elementary operations agrees with splitting, fusing
and writing, so a circuit has the same meaning after local optimization.
-/

namespace StabCircuit

open StabCircuit.Action

/-- The reading of circuits and layers as elementary operations, up to their effect. -/
def actionReading : Reading Action where
  instruction := Instruction.actions
  plain := Layer.actions
  Same := SameEffect

/-- Sound layers without repeated qubits. -/
def Layer.IsExact (l : Layer) : Prop := l.IsSound ∧ l.isDisjoint = true

/-- Sound instructions whose measurements with reset name no qubit twice. -/
def Instruction.IsExact (i : Instruction) : Prop := i.IsSound ∧ i.ResetsApart

theorem Layer.stable_isExact : Layer.Stable Layer.IsExact :=
  Layer.stable_isSound.and Layer.stable_isDisjoint

theorem lawful_actionReading :
    actionReading.Lawful Layer.IsExact Instruction.IsExact where
  refl := SameEffect.refl
  symm := SameEffect.symm
  trans := SameEffect.trans
  append := SameEffect.append
  stable := Layer.stable_isExact
  additive := Instruction.additive_actions
  instruction_tick := Instruction.actions_tick
  checked _ hl i hi := (Layer.isSound_of_mem_instructions hl.1 i hi).1
  vacuous _ hl h := Layer.sameEffect_vacuous hl h
  split _ _ hi h _ := LayerCircuit.sameEffect_yields hi.1 hi.2 h
  absorb _ _ _ h _ _ := Layer.sameEffect_absorb h
  rotations := Layer.sameEffect_composeRotations
  rotationReset := Layer.sameEffect_rotation_reset
  interactSwap _ _ h hl _ :=
    Layer.sameEffect_interact_swap h (Layer.nodup_of_isDisjoint hl.2 rfl)
  swapInteract _ _ h hl _ :=
    Layer.sameEffect_swap_interact h (Layer.nodup_of_isDisjoint hl.2 rfl)
  shifts _ _ := .refl _
  write _ hl hgood := Layer.sameEffect_instructions hgood.1 hgood.2 hl

theorem Layer.isExact_of_yields {i : Instruction} {more : List Layer}
    (hi : i.IsSound ∧ i.PiecesApart) (h : LayerCircuit.Yields i more) :
    ∀ l ∈ more, l.IsExact := by
  intro l hl
  refine ⟨Layer.isSound_of_yields hi.1 h l hl, ?_⟩
  exact (Layer.isDisjoint_yields_iff hi.1.1 h).2 (fun _ => hi.2) l hl

/-- Local optimization of a circuit that splits into layers succeeds and keeps its meaning, when no
pair or product repeats a qubit, no measurement with reset names a qubit twice and single-qubit
measurements are of qubits. -/
theorem optimize_sameMeaning {c : Circuit} {layers : LayerCircuit} (hc : c.Built)
    (hlayers : LayerCircuit.ofCircuit c = .ok layers)
    (hpieces : Circuit.Everywhere Instruction.PiecesApart c)
    (hresets : Circuit.Everywhere Instruction.ResetsApart c)
    (hmeasured : Circuit.Everywhere Instruction.MeasuresQubits c) :
    ∃ out, Pass.optimize c = .ok out ∧ Circuit.SameMeaning out c := by
  have hsound := hc.everywhere_isSound hmeasured
  have hexact : Layer.AllHold Layer.IsExact layers :=
    Layer.stable_isExact.allHold_ofCircuit (fun _ _ hi h => Layer.isExact_of_yields hi h)
      (fun i hi => ⟨hsound i hi, hpieces i hi⟩) hlayers
  have hoptimized := (Layer.stable_isExact.allHold_optimized layers).2 hexact
  have hsplit := lawful_actionReading.layers_ofCircuit
    (fun i hi => ⟨hsound i hi, hresets i hi⟩) hlayers hexact
  have hfused := lawful_actionReading.layers_optimized hexact
  have hwritten := lawful_actionReading.unrolled_toCircuit hoptimized
  refine ⟨layers.optimized.toCircuit, by simp [Pass.optimize, hlayers], ?_⟩
  exact .of_sameEffect (hwritten.trans (hfused.trans hsplit))

/-- Rounds of a rotation, an interaction and a swap in two steps, and measurements with reset. -/
def swapRounds : Circuit :=
  Circuit.pushRepeat (Circuit.push [] (.onQubits (.reset .z) [0, 1] [])) 3
    (List.foldl Circuit.push []
      [.onQubits (.rotate (.toZ .x)) [0] [], .onQubits (.controlled .z .x) [0, 1] [], .tick,
        .onQubits .swap [1, 0] [], .onQubits (.measureReset .x) [0, 1] []])

theorem built_swapRounds : swapRounds.Built :=
  have hreset : ∀ i ∈ [Instruction.onQubits (.reset .z) [0, 1] []], i.IsChecked := by
    decide +kernel
  .pushRepeat (Circuit.Built.nil.foldl_push hreset) (.foldl_push .nil (by decide +kernel)) 3

theorem optimize_sameMeaning_swapRounds :
    swapRounds.Built ∧ (LayerCircuit.ofCircuit swapRounds).isOk = true ∧
      Circuit.Everywhere Instruction.PiecesApart swapRounds ∧
      Circuit.Everywhere Instruction.ResetsApart swapRounds ∧
      Circuit.Everywhere Instruction.MeasuresQubits swapRounds ∧
      ∃ out, Pass.optimize swapRounds = .ok out ∧ Circuit.SameMeaning out swapRounds := by
  have hok : (LayerCircuit.ofCircuit swapRounds).isOk = true := by decide +kernel
  have hpieces : Circuit.Everywhere Instruction.PiecesApart swapRounds := by decide +kernel
  have hresets : Circuit.Everywhere Instruction.ResetsApart swapRounds := by decide +kernel
  have hmeasured : Circuit.Everywhere Instruction.MeasuresQubits swapRounds := by decide +kernel
  refine ⟨built_swapRounds, hok, hpieces, hresets, hmeasured, ?_⟩
  cases hlayers : LayerCircuit.ofCircuit swapRounds with
  | error e => simp [hlayers, Except.isOk, Except.toBool] at hok
  | ok layers => exact optimize_sameMeaning built_swapRounds hlayers hpieces hresets hmeasured

end StabCircuit
