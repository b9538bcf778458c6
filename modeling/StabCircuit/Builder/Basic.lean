import StabCircuit.Circuit.Basic
import StabCircuit.Circuit.Count
import StabCircuit.Record.Tracker

/-!
# Builders

A builder turns calls in terms of coordinates into a circuit.  It fixes the
index of every qubit when it is created and keeps a tracker, so that detectors
and observables refer to results by key.  Calls run in the monad `Build`: a call
that fails leaves behind whatever it had done before the failure.
-/

namespace StabCircuit

/-- A circuit under construction over a fixed set of qubits. -/
structure Builder where
  /-- The index of every qubit. -/
  layout : OrderedMap Coord Nat
  /-- The circuit so far. -/
  circuit : Circuit
  /-- The measurement record so far. -/
  tracker : Tracker

/-- Calls on a builder; the state survives a failure. -/
abbrev Build (α : Type) : Type := ExceptT CircuitError (StateM Builder) α

namespace Builder

/-- Declares the position of a qubit. -/
def declaration (index : Nat) (position : Coord) : Instruction :=
  { name := Gate.qubitCoords.name, targets := [.qubit index], args := [position.re, position.im] }

/-- A builder over qubits, indexed in canonical order.  The declared positions are the qubits'
own, moved by `place`. -/
def forQubitsWith (place : Coord → Coord) (qubits : List Coord) : Builder :=
  let indexed := (Coord.distinct qubits).zipIdx
  { layout := OrderedMap.ofList indexed
    circuit := indexed.foldl (fun c (q, i) => Circuit.push c (declaration i (place q))) []
    tracker := .empty }

/-- A builder over qubits, indexed in canonical order and declared at their own positions. -/
def forQubits (qubits : List Coord) : Builder := forQubitsWith id qubits

/-- The number of qubits. -/
def qubitCount (b : Builder) : Nat := b.layout.size

/-- The index of a qubit. -/
def indexOf (b : Builder) (gate : Option String) (qubit : Coord) : Except CircuitError Nat :=
  match b.layout.get? qubit with
  | some i => .ok i
  | none => .error (.unknownQubit qubit gate)

/-- The indices of qubits, with the gate that asks for them. -/
def indicesOf (b : Builder) (gate : Gate) (qubits : List Coord) : Except CircuitError (List Nat) :=
  qubits.mapM (b.indexOf (some gate.name))

/-- A builder over the same qubits and record with an empty circuit. -/
def fork (b : Builder) : Builder := { b with circuit := [] }

end Builder

namespace Build

/-- Evaluates something that may fail at the current builder. -/
def ask {α : Type} (f : Builder → Except CircuitError α) : Build α := do
  liftExcept (f (← get))
where
  /-- Passes on a failure. -/
  liftExcept {α : Type} : Except CircuitError α → Build α
    | .ok a => pure a
    | .error e => throw e

/-- Replaces the circuit. -/
def modifyCircuit (f : Circuit → Circuit) : Build Unit :=
  modify fun b => { b with circuit := f b.circuit }

/-- Appends a checked instruction. -/
def append (name : String) (targets : List Target) (args : List Scalar) : Build Unit := do
  let circuit ← ask fun b => Circuit.append b.circuit name targets args
  modify fun b => { b with circuit }

/-- Updates the measurement record, or fails without changing it. -/
def updateTracker (f : Tracker → Except CircuitError Tracker) : Build Unit := do
  let tracker ← ask fun b => f b.tracker
  modify fun b => { b with tracker }

/-- Appends a step boundary. -/
def tick : Build Unit := modifyCircuit Circuit.tick

/-- Shifts the coordinates of later detectors. -/
def shiftCoords (offset : Coord) (time : Scalar) : Build Unit :=
  modifyCircuit fun c =>
    c.push { name := Gate.shiftCoords.name, targets := [], args := [offset.re, offset.im, time] }

/-- Applies a single-qubit gate, reset or error channel to qubits in canonical order. -/
def gate (name : String) (qubits : List Coord) (args : List Scalar) : Build Unit := do
  let g ← ask fun _ => Gate.lookup name
  match g.kind with
  | .clifford1 | .reset | .noise1 => pure ()
  | _ => throw (.invalidArgument (.notOneQubit g.name))
  let sorted := Coord.sort qubits
  if sorted.isEmpty then return
  let indices ← ask fun b => b.indicesOf g sorted
  append g.name (indices.map .qubit) args

/-- Canonical order of pairs, by the first qubit and then by the second. -/
def pairLe (p q : Coord × Coord) : Bool :=
  ((compare p.1 q.1).then (compare p.2 q.2)).isLE

/-- The operands of a pair, the first in canonical order leading. -/
def orientPair (p : Coord × Coord) : Coord × Coord :=
  if (compare p.2 p.1).isLT then (p.2, p.1) else p

/-- The gate and the pairs that are written for a request: pairs are sorted, a gate that equals a
preferred one with exchanged operands is written as that one, and then the operands of a symmetric
gate are ordered. -/
def arrangePairs (g : Gate) (pairs : List (Coord × Coord)) : Gate × List (Coord × Coord) :=
  let sorted := pairs.mergeSort pairLe
  let (g, sorted) := match g.reversed? with
    | some preferred => (preferred, sorted.map Prod.swap)
    | none => (g, sorted)
  (g, if g.isSymmetric then sorted.map orientPair else sorted)

/-- Applies a two-qubit gate to pairs, arranged by `arrangePairs`. -/
def gate2 (name : String) (pairs : List (Coord × Coord)) : Build Unit := do
  let requested ← ask fun _ => Gate.lookup name
  if !requested.kind.isPairwise then throw (.invalidArgument (.notTwoQubit requested.name))
  let (g, arranged) := arrangePairs requested pairs
  if arranged.isEmpty then return
  let indices ← ask fun b => b.indicesOf g (arranged.flatMap fun p => [p.1, p.2])
  append g.name (indices.map .qubit) []

end Build

end StabCircuit
