import StabCircuit.Pass.Pipeline
import StabCircuit.Proofs.Record.Trace

/-!
# Passes keep the measurement record

Every pass keeps circuits sound and their record traces as they are, and so does
every pipeline that runs to its end.
-/

namespace StabCircuit

/-- The circuit is sound and has the events of another. -/
def KeepsEvents (c out : Circuit) : Prop :=
  Circuit.Everywhere Instruction.IsSound out ∧
    Circuit.unrolled (Instruction.events false) out =
      Circuit.unrolled (Instruction.events false) c

theorem KeepsEvents.trans {c mid out : Circuit} (h : KeepsEvents c mid)
    (h' : KeepsEvents mid out) : KeepsEvents c out :=
  ⟨h'.1, h'.2.trans h.2⟩

/-- Sound layers that show the events of a circuit are written with them. -/
theorem keepsEvents_toCircuit {c : Circuit} {ls : LayerCircuit}
    (hls : Layer.AllHold Layer.IsSound ls)
    (h : eventReading.layers ls = Circuit.unrolled (Instruction.events false) c) :
    KeepsEvents c ls.toCircuit :=
  ⟨Layer.everywhere_toCircuit Instruction.joinable_isSound Instruction.isSound_tick
      (hls.mono fun _ hl => Layer.isSound_of_mem_instructions hl),
    (lawful_eventReading.unrolled_toCircuit hls).trans h⟩

theorem ofCircuit_spec {c : Circuit} {ls : LayerCircuit}
    (hc : Circuit.Everywhere Instruction.IsSound c) (h : LayerCircuit.ofCircuit c = .ok ls) :
    Layer.AllHold Layer.IsSound ls ∧
      eventReading.layers ls = Circuit.unrolled (Instruction.events false) c := by
  have hls := Layer.stable_isSound.allHold_ofCircuit
    (fun _ _ hi h => Layer.isSound_of_yields hi h) hc h
  exact ⟨hls, lawful_eventReading.layers_ofCircuit hc h hls⟩

theorem keepsEvents_optimize {c out : Circuit} (hc : Circuit.Everywhere Instruction.IsSound c)
    (h : Pass.optimize c = .ok out) : KeepsEvents c out := by
  unfold Pass.optimize at h
  split at h
  · next layers hlayers =>
    cases h
    obtain ⟨hls, hevents⟩ := ofCircuit_spec hc hlayers
    exact keepsEvents_toCircuit ((Layer.stable_isSound.allHold_optimized layers).2 hls)
      ((lawful_eventReading.layers_optimized hls).trans hevents)
  · cases h
    exact ⟨hc, rfl⟩
  · cases h

theorem events_layerToZ {l : Layer} (hl : l.isLoop = false) :
    (LayerCircuit.layerToZ l).flatMap Layer.events = l.events := by
  cases l with
  | loop count body => simp [Layer.isLoop] at hl
  | interact _ | interactSwap _ | reset _ | measure _ | product _ =>
    rw [LayerCircuit.layerToZ]
    split <;> simp [Layer.events, Layer.rotationsToZ]
  | _ => simp [LayerCircuit.layerToZ]

theorem keepsEvents_zBasisCircuit {c out : Circuit}
    (hc : Circuit.Everywhere Instruction.IsSound c)
    (h : LayerCircuit.zBasisCircuit c = .ok out) : KeepsEvents c out := by
  obtain ⟨layers, hlayers, -, rfl⟩ := LayerCircuit.zBasisCircuit_eq_ok h
  obtain ⟨hls, hevents⟩ := ofCircuit_spec hc hlayers
  have hturned := (Layer.stableToZ_isSound.allHold_toZ layers).2 hls
  have hevents' := lawful_eventReading.layers_toZ (fun l hl _ => events_layerToZ hl) hls
  exact keepsEvents_toCircuit ((Layer.stable_isSound.allHold_optimized _).2 hturned)
    ((lawful_eventReading.layers_optimized hturned).trans (hevents'.trans hevents))

/-- A pass keeps the circuit sound and its events. -/
theorem keepsEvents_run {p : Pass} {job out : Job}
    (hc : Circuit.Everywhere Instruction.IsSound job.circuit) (h : p.run job = .ok out) :
    KeepsEvents job.circuit out.circuit := by
  unfold Pass.run at h
  split at h
  · split at h
    · cases h
      exact ⟨hc, rfl⟩
    · obtain ⟨circuit, hcircuit, rfl⟩ := map_eq_ok.1 h
      exact unrolled_noisyCircuit NoiseContext.unnoticed_events hc hcircuit
  · obtain ⟨circuit, hcircuit, rfl⟩ := map_eq_ok.1 h
    exact keepsEvents_zBasisCircuit hc hcircuit
  · obtain ⟨circuit, hcircuit, rfl⟩ := map_eq_ok.1 h
    exact keepsEvents_optimize hc hcircuit
  · obtain ⟨result, -, rfl⟩ := map_eq_ok.1 h
    exact ⟨hc, rfl⟩

theorem keepsEvents_runPasses {passes : List Pass} {job : Job}
    (hc : Circuit.Everywhere Instruction.IsSound job.circuit)
    (h : (runPasses job passes).2 = .ok ()) :
    KeepsEvents job.circuit (runPasses job passes).1.circuit := by
  induction passes generalizing job with
  | nil => exact ⟨hc, rfl⟩
  | cons p passes ih =>
    rw [runPasses] at h ⊢
    by_cases hrun : p.shouldRun job = true
    · rw [if_pos hrun] at h ⊢
      cases hout : p.run job with
      | error e =>
        rw [hout] at h
        cases h
      | ok out =>
        rw [hout] at h
        have hstep := keepsEvents_run hc hout
        exact hstep.trans (ih hstep.1 h)
    · rw [if_neg hrun] at h ⊢
      exact ih hc h

/-- A pipeline that runs to its end keeps the results of a circuit, the results that its detectors
and observables mean and the bits that control its gates. -/
theorem run_recordTrace {config : PipelineConfig} {c : Circuit} (hc : c.Built)
    (hmeasured : Circuit.Everywhere Instruction.MeasuresQubits c)
    (h : (config.run c).2 = .ok ()) :
    (config.run c).1.circuit.recordTrace false = c.recordTrace false := by
  have hsound := hc.everywhere_isSound hmeasured
  have hkeeps := @keepsEvents_runPasses config.passes ⟨c, config.properties⟩ hsound h
  exact congrArg (RecordEvent.resolved 0) hkeeps.2

/-- Rounds of an interaction, a measurement with reset, a detector and feedback, and a measured
observable. -/
def feedbackRounds : Circuit :=
  List.foldl Circuit.push
    (Circuit.pushRepeat (List.foldl Circuit.push [] [.onQubits (.reset .x) [0, 1] []]) 2
      (List.foldl Circuit.push []
        [.tick, .onQubits (.controlled .x .x) [0, 1] [], .tick, .onQubits (.measureReset .x) [1] [],
          ⟨Gate.detector.name, [.record (-1)], []⟩,
          ⟨(Gate.controlled .z .x).name, [.record (-1), .qubit 0], []⟩]))
    [.onQubits (.measure .y) [0] [], ⟨Gate.observableInclude.name, [.record (-1)], [0]⟩]

/-- Injection of uniform noise, the change to the Z basis, local optimization and verification. -/
def noisyPipeline : PipelineConfig :=
  PipelineConfig.withNoise { zBasis := true } (NoiseModel.uniform (1 / 100))

theorem run_recordTrace_feedbackRounds :
    feedbackRounds.Built ∧ Circuit.Everywhere Instruction.MeasuresQubits feedbackRounds ∧
      (noisyPipeline.run feedbackRounds).2 = .ok () ∧
      (noisyPipeline.run feedbackRounds).1.circuit.recordTrace false =
        feedbackRounds.recordTrace false := by
  have hreset : Circuit.Built (List.foldl Circuit.push [] [.onQubits (.reset .x) [0, 1] []]) :=
    .foldl_push .nil (by decide +kernel)
  have hbuilt : feedbackRounds.Built :=
    .foldl_push (.pushRepeat hreset (.foldl_push .nil (by decide +kernel)) 2) (by decide +kernel)
  have hmeasured : Circuit.Everywhere Instruction.MeasuresQubits feedbackRounds := by
    decide +kernel
  have hok : (noisyPipeline.run feedbackRounds).2 = .ok () := by decide +kernel
  exact ⟨hbuilt, hmeasured, hok, run_recordTrace hbuilt hmeasured hok⟩

/-- A result, and a shift of coordinates with a reference to it. -/
def shiftAfterResult : Circuit :=
  List.foldl Circuit.push []
    [.onQubits (.measure .z) [0] [], ⟨Gate.shiftCoords.name, [.record (-1)], [1]⟩]

/-- References among the targets of coordinates are dropped by local optimization. -/
theorem recordTrace_shiftAfterResult :
    shiftAfterResult.Built ∧ Circuit.Everywhere Instruction.MeasuresQubits shiftAfterResult ∧
      (PipelineConfig.run {} shiftAfterResult).2 = .ok () ∧
      (PipelineConfig.run {} shiftAfterResult).1.circuit.recordTrace true ≠
        shiftAfterResult.recordTrace true := by
  refine ⟨.foldl_push .nil (by decide +kernel), ?_, ?_, ?_⟩
  · decide +kernel
  · decide +kernel
  · decide +kernel

end StabCircuit
