import StabCircuit.Builder.Workspace
import StabCircuit.Proofs.Builder.Programs

/-!
# Programs over a shared record

A program runs in a workspace: the body of a loop runs on a fork, which shares the
tracker of the builder it was made from, and the circuit of the fork is appended,
repeated, to the builder.  The run leaves on the bench what the program leaves when
the record is handed from builder to builder, so the tracker and the circuit of the
bench agree.
-/

namespace StabCircuit

namespace Workspace

/-- The workspace after calls, when they succeed. -/
def completed (outcome : Except CircuitError Unit × Workspace) : Option Workspace :=
  outcome.1.toOption.map fun _ => outcome.2

/-- The name of a fork for the body of a loop, longer than the names of the enclosing benches. -/
def forkName (name : String) : String := name ++ "+"

mutual

/-- Runs a step on the bench of a name. -/
def runStep (w : Workspace) (name : String) : Step → Option Workspace
  | .call c => do
    let s ← w.bench? name
    completed (w.runOn s c.run)
  | .loop count body => do
    let s ← w.bench? name
    let w ← runSteps (w.fork s (forkName name)) (forkName name) body
    let child ← w.bench? (forkName name)
    let s ← w.bench? name
    completed (w.runOn s (Build.appendRepeated child.circuit count))

/-- Runs steps on the bench of a name, one after another. -/
def runSteps (w : Workspace) (name : String) : List Step → Option Workspace
  | [] => some w
  | step :: rest => do
    let w ← runStep w name step
    runSteps w name rest

end

/-! ## Benches -/

theorem bench?_put_self (w : Workspace) (s : Bench) : (w.put s).bench? s.name = some s := by
  have hrest : (w.benches.filter fun other => other.name != s.name).find?
      (fun other => other.name == s.name) = none := by
    rw [List.find?_eq_none]
    intro other hother
    simpa using (List.mem_filter.1 hother).2
  rw [bench?, put, List.find?_append, hrest]
  simp

theorem bench?_put_of_ne (w : Workspace) {s : Bench} {name : String} (h : s.name ≠ name) :
    (w.put s).bench? name = w.bench? name := by
  have hkept : (fun other : Bench => decide ((other.name != s.name) = true ∧
      (other.name == name) = true)) = fun other => other.name == name := by
    funext other
    by_cases hname : other.name = name
    · simp [hname, Ne.symm h]
    · simp [hname]
  have hlast : [s].find? (fun other => other.name == name) = none := by
    simp [h]
  rw [bench?, put, List.find?_append, hlast, Option.or_none, List.find?_filter, hkept]
  rfl

theorem forkName_ne {name other : String} (h : other.length ≤ name.length) :
    forkName name ≠ other := by
  rintro rfl
  simp [forkName] at h

/-- The builder on the bench of a name, whose tracker is shared under a number. -/
structure Holds (w : Workspace) (name : String) (shared : Nat) (b : Builder) : Prop where
  bench : w.bench? name = some ⟨name, b.layout, b.circuit, shared⟩
  tracker : w.trackers[shared]? = some b.tracker

/-- The benches that were there before a run on a bench began, but for the bench itself, are as
before: only longer names are new. -/
def Keeps (w w' : Workspace) (name : String) : Prop :=
  ∀ other : String, other ≠ name → other.length ≤ name.length → w'.bench? other = w.bench? other

theorem keeps_refl (w : Workspace) (name : String) : Keeps w w name := fun _ _ _ => rfl

theorem Keeps.trans {w w' w'' : Workspace} {name : String} (h : Keeps w w' name)
    (h' : Keeps w' w'' name) : Keeps w w'' name :=
  fun other hne hlength => (h' other hne hlength).trans (h other hne hlength)

section Runs

variable {w w' : Workspace} {name : String} {shared : Nat} {b b' : Builder}

theorem Holds.builder? (h : Holds w name shared b) : w.builder? name = some b := by
  rw [Workspace.builder?, h.bench]
  simp [builderOn, h.tracker]

theorem holds_single (name : String) (b : Builder) : Holds (single name b) name 0 b :=
  ⟨by simp [bench?, single], rfl⟩

/-- The workspace after calls on a bench. -/
theorem completed_runOn {s : Bench} {calls : Build Unit}
    (h : completed (w.runOn s calls) = some w') :
    ∃ b', Step.after (w.builderOn s) calls = .ok b' ∧
      w' = { w with trackers := w.trackers.set s.tracker b'.tracker }.put
        { s with circuit := b'.circuit } := by
  have hrun : w.runOn s calls = ((Build.outcome calls (w.builderOn s)).1,
      { w with trackers :=
          w.trackers.set s.tracker (Build.outcome calls (w.builderOn s)).2.tracker }.put
        { s with circuit := (Build.outcome calls (w.builderOn s)).2.circuit }) := rfl
  rw [hrun] at h
  obtain ⟨_, hresult, rfl⟩ := Option.map_eq_some_iff.1 h
  refine ⟨_, map_eq_ok.2 ⟨(), ?_, rfl⟩, rfl⟩
  cases hok : (Build.outcome calls (w.builderOn s)).1 with
  | error e => simp [hok, Except.toOption] at hresult
  | ok _ => rfl

/-- Calls on a bench run on its builder and change no other bench. -/
theorem Holds.runOn (hw : Holds w name shared b) {s : Bench} (hs : w.bench? name = some s)
    {calls : Build Unit} (h : completed (w.runOn s calls) = some w') :
    ∃ b', Step.after b calls = .ok b' ∧ (b'.layout = b.layout → Holds w' name shared b') ∧
      Keeps w w' name := by
  rw [hw.bench] at hs
  cases hs
  obtain ⟨b', hb', rfl⟩ := completed_runOn h
  have hbuilder : w.builderOn ⟨name, b.layout, b.circuit, shared⟩ = b := by
    simp [builderOn, hw.tracker]
  have hlt : shared < w.trackers.length := (List.getElem?_eq_some_iff.1 hw.tracker).1
  rw [hbuilder] at hb'
  refine ⟨b', hb', fun hlayout => ⟨?_, ?_⟩, fun other hne _ => ?_⟩
  · rw [hlayout]
    exact bench?_put_self _ ⟨name, b.layout, b'.circuit, shared⟩
  · exact List.getElem?_set_self hlt
  · exact bench?_put_of_ne _ (Ne.symm hne)

theorem Holds.fork (hw : Holds w name shared b) {s : Bench} (hs : w.bench? name = some s) :
    Holds (w.fork s (forkName name)) (forkName name) shared b.fork := by
  rw [hw.bench] at hs
  cases hs
  exact ⟨bench?_put_self w ⟨forkName name, b.layout, [], shared⟩, hw.tracker⟩

/-- A run on a fork changes neither the bench that it was made from nor those around it. -/
theorem Keeps.bench?_of_fork {s : Bench}
    (h : Keeps (w.fork s (forkName name)) w' (forkName name)) {other : String}
    (hother : other.length ≤ name.length) : w'.bench? other = w.bench? other := by
  have hne := forkName_ne hother
  have hlength : other.length ≤ (forkName name).length := by
    rw [forkName, String.length_append]
    omega
  rw [h other (Ne.symm hne) hlength]
  exact bench?_put_of_ne w hne

end Runs

mutual

/-- A step in a workspace does on the bench what it does when the record is handed on. -/
theorem Holds.runStep {w w' : Workspace} {name : String} {shared : Nat} {b : Builder}
    {record : List (Key × List Nat)} (hw : Holds w name shared b) (hb : b.InStep record) :
    (step : Step) → w.runStep name step = some w' →
      ∃ b', Step.run b step = .ok b' ∧ Holds w' name shared b' ∧ Keeps w w' name
  | .call c, h => by
    rw [Workspace.runStep] at h
    obtain ⟨s, hs, h⟩ := Option.bind_eq_some_iff.1 h
    obtain ⟨b', hb', hholds, hkeeps⟩ := hw.runOn hs h
    have hrun : Step.run b (.call c) = .ok b' := by
      rw [Step.run, hb']
    exact ⟨b', hrun, hholds (Step.run_advances hb _ hrun).layout, hkeeps⟩
  | .loop count body, h => by
    rw [Workspace.runStep] at h
    obtain ⟨s, hs, h⟩ := Option.bind_eq_some_iff.1 h
    obtain ⟨mid, hmid, h⟩ := Option.bind_eq_some_iff.1 h
    obtain ⟨bench, hbench, h⟩ := Option.bind_eq_some_iff.1 h
    obtain ⟨s', hs', h⟩ := Option.bind_eq_some_iff.1 h
    obtain ⟨child, hchild, hholds, hkeeps⟩ := (hw.fork hs).runSteps hb.fork body hmid
    rw [hholds.bench] at hbench
    cases hbench
    -- The fork has changed the tracker that the bench shares with it.
    have hshared : Holds mid name shared { b with tracker := child.tracker } :=
      ⟨(hkeeps.bench?_of_fork (Nat.le_refl _)).trans hw.bench, hholds.tracker⟩
    obtain ⟨b', hb', hholds', hkeeps'⟩ := hshared.runOn hs' h
    have hrun : Step.run b (.loop count body) = .ok b' := by
      rw [Step.run, hchild]
      exact hb'
    refine ⟨b', hrun, hholds' (Step.run_advances hb _ hrun).layout, fun other hne hlength => ?_⟩
    rw [hkeeps' other hne hlength]
    exact hkeeps.bench?_of_fork hlength

/-- Steps in a workspace do on the bench what they do when the record is handed on. -/
theorem Holds.runSteps {w w' : Workspace} {name : String} {shared : Nat} {b : Builder}
    {record : List (Key × List Nat)} (hw : Holds w name shared b) (hb : b.InStep record) :
    (steps : List Step) → w.runSteps name steps = some w' →
      ∃ b', Step.runAll b steps = .ok b' ∧ Holds w' name shared b' ∧ Keeps w w' name
  | [], h => by
    rw [Workspace.runSteps] at h
    cases h
    exact ⟨b, by rw [Step.runAll], hw, keeps_refl w name⟩
  | step :: rest, h => by
    rw [Workspace.runSteps] at h
    obtain ⟨mid, hmid, h⟩ := Option.bind_eq_some_iff.1 h
    obtain ⟨next, hnext, hholds, hkeeps⟩ := hw.runStep hb step hmid
    obtain ⟨b', hb', hholds', hkeeps'⟩ :=
      hholds.runSteps (Step.run_advances hb step hnext).inStep rest h
    refine ⟨b', ?_, hholds', hkeeps.trans hkeeps'⟩
    rw [Step.runAll, hnext]
    exact hb'

end

/-- Rounds of a parity check with rounds of feedback inside, compared with the check before them
and with the qubits read out at the end. -/
def checkedRounds : List Step :=
  [.call (.gate "R" [.make 0 0] []), .call (.gate "R" [.make 2 0] []), .call .tick,
    .call (.measureProduct (.ofTerms [(.make 0 0, .z), (.make 2 0, .z)]) (.name "first") none),
    .loop 3 [
      .call (.gate2 "CX" [(.make 0 0, .make 1 0)]), .call .tick,
      .call (.measureProduct (.ofTerms [(.make 0 0, .z), (.make 2 0, .z)]) (.name "check") none),
      .loop 2 [
        .call (.measure [.make 1 0] .z .coord "inner"),
        .call (.classicalPaulis [.atLayer (.coord (.make 1 0)) "inner"] [.make 1 0] .x)],
      .call (.detector [.name "first", .name "check"] {}),
      .call (.shiftCoords (.make 0 0) 1)],
    .call (.obstacle (.name "closed")),
    .call (.measure [.make 0 0] .z .coord "end"), .call (.measure [.make 2 0] .z .coord "end"),
    .call (.group [.atLayer (.coord (.make 0 0)) "end", .atLayer (.coord (.make 2 0)) "end"]
      (.name "both")),
    .call (.detector [.name "check", .name "both", .name "absent"] { ignoreMissing := true }),
    .call (.includeObservable [.atLayer (.coord (.make 1 0)) "inner", .name "both"] 0)]

/-- The qubits of `checkedRounds`. -/
def checkedQubits : List Coord := [.make 0 0, .make 1 0, .make 2 0]

/-- A program fails whose loop gives more results than a count holds. -/
example : ((single "main" (Builder.forQubits checkedQubits)).runSteps "main"
    [.call (.measure [.make 0 0] .z .coord "before"),
      .loop 9223372036854775808 [
        .call (.measure [.make 1 0] .z .coord "inside"),
        .call (.measure [.make 2 0] .z .coord "inside")]]).isNone = true := by
  decide +kernel

end Workspace

end StabCircuit
