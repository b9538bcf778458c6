import StabCircuit.Builder.Measure
import StabCircuit.Patch.Tile

/-!
# Measuring patches

Whole rounds of parity checks: a patch is measured with one product measurement
a tile or through the measurement qubits, data qubits are measured out and
compared with the last round, and qubits are measured and reset with feedback
that hides the reset.
-/

namespace StabCircuit

/-- How the parity checks of a patch are realized. -/
inductive CheckStyle where
  /-- One joint product measurement a check. -/
  | product
  /-- The measurement qubit controls Paulis on the data qubits and is measured. -/
  | ancilla
deriving DecidableEq, Inhabited

namespace Build

/-- The pairs that interact in a step of a patch under a basis. -/
def slotPairs (patch : Patch) (step : Nat) (basis : Basis) : List (Coord × Coord) :=
  patch.tiles.filterMap fun (tile : Tile) =>
    match tile.slots[step]? with
    | some slot =>
      if slot.basis = basis then slot.qubit.map fun q => (tile.measurementQubit, q) else none
    | none => none

/-- The number of steps of the longest tile. -/
def patchDepth (patch : Patch) : Nat :=
  patch.tiles.foldl (fun depth tile => max depth tile.slots.length) 0

/-- Measures every tile through its measurement qubit. -/
def measureWithAncillas (patch : Patch) (layer : String) : Build Unit := do
  let ancillas := patch.tiles.map Tile.measurementQubit
  gate (Gate.reset .x).name ancillas []
  tick
  (List.range (patchDepth patch)).forM fun step => do
    Basis.all.forM fun basis =>
      gate2 (Gate.controlled .z basis).name (slotPairs patch step basis)
    tick
  measure ancillas .x .coord layer

/-- The key of a tile's result in a layer. -/
def tileKey (tile : Tile) (layer : String) : Key := .atLayer (.coord tile.measurementQubit) layer

/-- Measures every tile of a patch in layer `save`; with a layer to compare with, every tile gets
a detector over the two results. -/
def measurePatch (patch : Patch) (save : String) (compare : Option String) (style : CheckStyle) :
    Build Unit := do
  match style with
  | .product => patch.tiles.forM fun tile => measureProduct tile.product (tileKey tile save) none
  | .ancilla => measureWithAncillas patch save
  match compare with
  | none => pure ()
  | some layer =>
    patch.tiles.forM fun tile =>
      detector [tileKey tile save, tileKey tile layer] (.placed tile.measurementQubit)

/-- Measures the data qubits of a patch in a basis and compares every tile of that basis with its
result in layer `compare`.  A tile of mixed bases is an error. -/
def measureData (patch : Patch) (basis : Basis) (layer compare : String) : Build Unit := do
  patch.tiles.forM fun tile =>
    if tile.basis?.isNone && !tile.dataTerms.isEmpty then
      throw (.basisMismatch tile.measurementQubit basis.text tile.basesText)
    else pure ()
  measure patch.dataSet.toList basis .coord layer
  patch.tiles.forM fun tile => do
    if tile.basis? = some basis then
      let data := tile.dataSet.toList.map fun q => Key.atLayer (.coord q) layer
      detector (data ++ [tileKey tile compare]) (.placed tile.measurementQubit)

/-- Measures and resets qubits in their bases and undoes the resets by feedback, so that later
detectors see the qubits as if they had only been measured. -/
def demolish (xs ys zs : List Coord) (keyOf : Coord → Key) (layer : String) : Build Unit := do
  measure xs .x keyOf layer
  measure ys .y keyOf layer
  measure zs .z keyOf layer
  tick
  gate (Gate.reset .x).name xs []
  gate (Gate.reset .y).name ys []
  gate (Gate.reset .z).name zs []
  [(xs, Basis.z), (ys, Basis.x), (zs, Basis.x)].forM fun (qubits, feedback) =>
    qubits.forM fun q => classicalPaulis [.atLayer (keyOf q) layer] [q] feedback

end Build

end StabCircuit
