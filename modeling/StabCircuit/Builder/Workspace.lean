import StabCircuit.Builder.Patch

/-!
# Builders that share a record

A workspace holds named builders.  A fork shares the tracker of the builder it
was made from, so a measurement through one is seen by the other; a copy has a
tracker of its own.
-/

namespace StabCircuit

/-- A named builder of a workspace, with its tracker kept aside. -/
structure Bench where
  /-- The name of the builder. -/
  name : String
  /-- The index of every qubit. -/
  layout : OrderedMap Coord Nat
  /-- The circuit so far. -/
  circuit : Circuit
  /-- The number of the tracker in use. -/
  tracker : Nat

/-- Named builders and the trackers that they share. -/
structure Workspace where
  /-- The builders, each name once. -/
  benches : List Bench
  /-- The trackers by number. -/
  trackers : List Tracker

namespace Workspace

/-- The workspace with one builder. -/
def single (name : String) (b : Builder) : Workspace :=
  ⟨[⟨name, b.layout, b.circuit, 0⟩], [b.tracker]⟩

/-- The bench of a name. -/
def bench? (w : Workspace) (name : String) : Option Bench :=
  w.benches.find? fun s => s.name == name

/-- The builder on a bench. -/
def builderOn (w : Workspace) (s : Bench) : Builder :=
  ⟨s.layout, s.circuit, w.trackers[s.tracker]?.getD .empty⟩

/-- The builder of a name. -/
def builder? (w : Workspace) (name : String) : Option Builder := (w.bench? name).map w.builderOn

/-- Puts a bench in place of one of the same name, or adds it. -/
def put (w : Workspace) (s : Bench) : Workspace :=
  { w with benches := (w.benches.filter fun other => other.name != s.name) ++ [s] }

/-- Adds a fork of a builder, which shares its tracker. -/
def fork (w : Workspace) (s : Bench) (name : String) : Workspace :=
  w.put { s with name, circuit := [] }

/-- Adds a copy of a builder, with a tracker of its own. -/
def copy (w : Workspace) (s : Bench) (name : String) : Workspace :=
  let b := w.builderOn s
  { w with trackers := w.trackers ++ [b.tracker] }.put { s with name, tracker := w.trackers.length }

/-- Runs calls on a builder; trackers and circuit keep what a failing call had done. -/
def runOn {α : Type} (w : Workspace) (s : Bench) (calls : Build α) :
    Except CircuitError α × Workspace :=
  let (result, b) := (calls.run (w.builderOn s))
  (result,
    { w with trackers := w.trackers.set s.tracker b.tracker }.put { s with circuit := b.circuit })

end Workspace

end StabCircuit
