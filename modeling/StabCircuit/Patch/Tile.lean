import StabCircuit.Error
import StabCircuit.Pauli.Product

/-!
# Tiles and patches

A tile is a stabilizer together with how it is measured: a measurement qubit and
data slots in interaction order, each with a basis and possibly empty.  A patch
is a list of tiles ordered by measurement qubit.
-/

namespace StabCircuit

/-- One step of a tile's interaction order. -/
structure Slot where
  /-- The basis of the step. -/
  basis : Basis
  /-- The data qubit, unless nothing happens in this step. -/
  qubit : Option Coord
deriving DecidableEq

/-- A stabilizer annotated with how it is measured. -/
structure Tile where
  /-- The qubit that collects the result. -/
  measurementQubit : Coord
  /-- The steps in interaction order. -/
  slots : List Slot
deriving DecidableEq

namespace Tile

/-- The bases of a text of letters. -/
def readBases : List Char → Except CircuitError (List Basis)
  | [] => .ok []
  | c :: rest =>
    match Basis.ofLetter? c with
    | none => .error (.unsupportedBasis (String.singleton c))
    | some b => (readBases rest).map (b :: ·)

/-- A tile from the letters of its bases and its data slots; a single letter is used for all. -/
def make (bases : String) (measurementQubit : Coord) (data : List (Option Coord)) :
    Except CircuitError Tile :=
  (readBases bases.toList).bind fun letters =>
    let expanded := match letters with
      | [b] => List.replicate data.length b
      | _ => letters
    if expanded.length = data.length then
      .ok { measurementQubit, slots := expanded.zipWith Slot.mk data }
    else
      .error (.invalidArgument (.slotCount measurementQubit expanded.length data.length))

/-- The bases of the slots, as letters. -/
def basesText (t : Tile) : String := String.ofList (t.slots.map fun s => s.basis.letter)

/-- The occupied slots, in interaction order. -/
def dataTerms (t : Tile) : List (Coord × Basis) :=
  t.slots.filterMap fun s => s.qubit.map fun q => (q, s.basis)

/-- The basis shared by all occupied slots, if there is exactly one. -/
def basis? (t : Tile) : Option Basis :=
  match t.dataTerms with
  | [] => none
  | (_, b) :: rest => if rest.all fun term => term.2 == b then some b else none

/-- The data qubits. -/
def dataSet (t : Tile) : OrderedSet Coord := OrderedSet.ofList (t.dataTerms.map (·.1))

/-- The data qubits and the measurement qubit. -/
def usedSet (t : Tile) : OrderedSet Coord := OrderedSet.insert t.dataSet t.measurementQubit

/-- The stabilizer as a product over the data qubits. -/
def product (t : Tile) : PauliProduct := .ofTerms t.dataTerms

/-- The tile with X and Z exchanged. -/
def exchangeXZ (t : Tile) : Tile :=
  { t with slots := t.slots.map fun s => { s with basis := s.basis.exchangeXZ } }

/-- The tile with every slot that holds a qubit emptied. -/
def clear (t : Tile) (qubit : Coord) : Tile :=
  { t with slots := t.slots.map fun s => { s with qubit := s.qubit.filter (· != qubit) } }

end Tile

/-- Tiles ordered by measurement qubit. -/
structure Patch where
  /-- The tiles. -/
  tiles : List Tile
deriving DecidableEq, Inhabited

namespace Patch

/-- A patch of tiles; tiles that share a measurement qubit keep their order. -/
def make (tiles : List Tile) : Patch :=
  ⟨tiles.mergeSort fun a b => a.measurementQubit.le b.measurementQubit⟩

/-- Every data qubit. -/
def dataSet (p : Patch) : OrderedSet Coord :=
  OrderedSet.ofList (p.tiles.flatMap fun t => t.dataTerms.map (·.1))

/-- Every measurement qubit. -/
def measureSet (p : Patch) : OrderedSet Coord :=
  OrderedSet.ofList (p.tiles.map Tile.measurementQubit)

/-- Every qubit of the patch. -/
def usedSet (p : Patch) : OrderedSet Coord :=
  OrderedSet.insertMany p.dataSet p.measureSet.toList

/-- The first tile with a given measurement qubit. -/
def tileAt? (p : Patch) (position : Coord) : Option Tile :=
  p.tiles.find? fun t => t.measurementQubit == position

end Patch

end StabCircuit
