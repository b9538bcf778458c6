import StabCircuit.Builder.Basic
import StabCircuit.Pauli.Product

/-!
# Measuring and referring to results

Measurements bind keys in the order in which their targets are written.
Detectors, observables and classically controlled Paulis resolve keys to record
targets.
-/

namespace StabCircuit

/-- The coordinates and look-up options of a detector. -/
structure DetectorOptions where
  /-- The position; without it no coordinates are written. -/
  position : Option Coord := none
  /-- The time coordinate. -/
  time : Scalar := 0
  /-- Further coordinates after the time. -/
  extra : List Scalar := []
  /-- Whether a last coordinate `1` marks the detector for post-selection. -/
  postSelected : Bool := false
  /-- Whether keys that were never bound are dropped. -/
  ignoreMissing : Bool := false

namespace DetectorOptions

/-- The options that place a detector. -/
def placed (position : Coord) : DetectorOptions := { position := some position }

/-- The arguments of the detector. -/
def coordinates (o : DetectorOptions) : Except CircuitError (List Scalar) :=
  match o.position with
  | some p => .ok ([p.re, p.im, o.time] ++ o.extra ++ if o.postSelected then [1] else [])
  | none =>
    if !o.extra.isEmpty then .error (.invalidArgument .extraWithoutPosition)
    else if o.postSelected then .error (.invalidArgument .postSelectedWithoutPosition)
    else .ok []

end DetectorOptions

namespace Build

/-- The first key that is bound already or listed before, given those listed so far. -/
def firstTaken? (t : Tracker) (seen : List Key) : List Key → Option Key
  | [] => none
  | key :: keys =>
    if t.contains key || seen.contains key then some key
    else firstTaken? t (key :: seen) keys

/-- Fails when the record cannot count that many results more.  Counting fails before anything is
written, since a program that overflows ends and what it has written is lost. -/
def reserve (more : Nat) : Build Unit := do
  let _ ← ask fun b => Count.add b.tracker.count more

/-- Measures qubits in a basis, in canonical order, and binds the key of each qubit at `layer`. -/
def measure (qubits : List Coord) (basis : Basis) (keyOf : Coord → Key) (layer : String) :
    Build Unit := do
  let sorted := Coord.sort qubits
  if sorted.isEmpty then return
  let g := Gate.measure basis
  let indices ← ask fun b => b.indicesOf g sorted
  let keys := sorted.map fun q => Key.atLayer (keyOf q) layer
  if let some taken := firstTaken? (← get).tracker [] keys then
    throw (.keyCollision taken)
  reserve keys.length
  append g.name (indices.map .qubit) []
  keys.forM fun key => updateTracker fun t => t.record key

/-- Measures a Pauli product as one result bound to a key, reported wrongly with probability
`flip`.  The identity writes nothing and binds the key to no results. -/
def measureProduct (product : PauliProduct) (key : Key) (flip : Option Scalar) : Build Unit := do
  if product.isIdentity then
    updateTracker fun t => t.recordGroup [] key
  else
    if (← get).tracker.contains key then throw (.keyCollision key)
    let g := Gate.measureProduct
    let factors ← product.terms.mapM fun (q, basis) => do
      let index ← ask fun b => b.indexOf (some g.name) q
      pure (Target.pauli basis index)
    reserve 1
    append g.name (Target.joinProduct factors) flip.toList
    updateTracker fun t => t.record key

/-- Declares a detector over the parity of keys. -/
def detector (keys : List Key) (options : DetectorOptions) : Build Unit := do
  let coordinates ← ask fun _ => options.coordinates
  let tracker := (← get).tracker
  let bound := keys.filter fun k => !options.ignoreMissing || tracker.contains k
  let targets ← ask fun b => b.tracker.recordTargets bound
  append Gate.detector.name targets coordinates

/-- Adds the parity of keys to a logical observable; keys that cancel out write nothing. -/
def includeObservable (keys : List Key) (index : Nat) : Build Unit := do
  let targets ← ask fun b => b.tracker.recordTargets keys
  if targets.isEmpty then return
  append Gate.observableInclude.name targets [Scalar.ofNat index]

/-- Applies a Pauli to each qubit, controlled by every result that the keys resolve to. -/
def classicalPaulis (keys : List Key) (qubits : List Coord) (basis : Basis) : Build Unit := do
  let g := Gate.controlled .z basis
  let indices ← ask fun b => b.indicesOf g (Coord.sort qubits)
  let records ← ask fun b => b.tracker.recordTargets keys
  records.forM fun record => indices.forM fun i => append g.name [record, .qubit i] []

/-- Splices in a loop body whose results are the most recent ones, repeated `count` times. -/
def appendRepeated (body : Circuit) (count : Nat) : Build Unit := do
  updateTracker fun t => t.repeatRecent (Circuit.measurementCount body) count
  modifyCircuit fun c => c.pushRepeat count body

end Build

end StabCircuit
