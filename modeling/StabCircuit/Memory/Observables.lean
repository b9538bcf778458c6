import StabCircuit.CompileError
import StabCircuit.Patch.Tile

/-!
# Pairing observables

X and Z observables of a memory experiment do not commute with their partners.
Each pair is entangled with an ancilla: the X observable gains an X factor and
the Z observable a Z factor on it, after which all observables commute.
-/

namespace StabCircuit

/-- Observables to be measured, and the ancillas they use. -/
structure PairedObservables where
  /-- The observables. -/
  observables : List PauliProduct
  /-- One ancilla a pair; none when no pairing was needed. -/
  ancillas : List Coord
deriving DecidableEq

namespace PairedObservables

/-- Fails at the first of the later observables that anticommutes with a given one. -/
def checkAgainst (what : String) (i : Nat) (a : PauliProduct) :
    Nat → List PauliProduct → Except CompileError Unit
  | _, [] => .ok ()
  | j, b :: rest =>
    if a.commutes b then checkAgainst what i a (j + 1) rest
    else .error (.invalidConfiguration (.anticommuting what i a j b))

/-- Fails at the first two observables that anticommute. -/
def checkCommuting (what : String) : Nat → List PauliProduct → Except CompileError Unit
  | _, [] => .ok ()
  | i, a :: rest => do
    checkAgainst what i a (i + 1) rest
    checkCommuting what (i + 1) rest

/-- Checks an X observable against the Z observables: it anticommutes with its partner alone. -/
def checkPartners (i : Nat) (x : PauliProduct) :
    Nat → List PauliProduct → Except CompileError Unit
  | _, [] => .ok ()
  | j, z :: rest =>
    if i = j ∧ x.commutes z then .error (.invalidConfiguration (.commutingPartners i x z))
    else if i ≠ j ∧ !x.commutes z then
      .error (.invalidConfiguration (.anticommutingStrangers i x j z))
    else checkPartners i x (j + 1) rest

/-- Checks all X observables against all Z observables. -/
def checkPairs (zs : List PauliProduct) : Nat → List PauliProduct → Except CompileError Unit
  | _, [] => .ok ()
  | i, x :: rest => do
    checkPartners i x 0 zs
    checkPairs zs (i + 1) rest

/-- The position of the first default ancilla: a step below the lowest data qubit, at the smallest
real part. -/
def defaultCorner (patch : Patch) : Coord :=
  match patch.dataSet.toList with
  | [] => .make 0 (Scalar.ofInt (-1))
  | data =>
    let low := fun (part : Coord → Scalar) =>
      data.foldl (fun m q => m.numMin (part q)) (Scalar.infinity false)
    .make (low Coord.re) (low Coord.im - 1)

/-- Default ancillas: a row that starts at the corner and steps right. -/
def defaultAncillas (patch : Patch) (pairs : Nat) : List Coord :=
  (List.range pairs).map fun k => defaultCorner patch + .make (Scalar.ofNat k) 0

/-- The ancillas for a number of pairs: those suggested, or the default ones. -/
def chooseAncillas (patch : Patch) (pairs : Nat) :
    Option (List Coord) → Except CompileError (List Coord)
  | none => .ok (defaultAncillas patch pairs)
  | some given =>
    if given.length = pairs then .ok given
    else .error (.invalidConfiguration (.ancillaCount given.length pairs))

/-- Fails at the first ancilla that sits on a qubit of the patch. -/
def checkFree (patch : Patch) (ancillas : List Coord) : Except CompileError Unit :=
  match ancillas.find? fun a => patch.usedSet.contains a with
  | some clash => .error (.invalidConfiguration (.ancillaOverlap clash))
  | none => .ok ()

/-- Multiplies a factor on its ancilla into every observable. -/
def attach (basis : Basis) (observables : List PauliProduct) (ancillas : List Coord) :
    List PauliProduct :=
  observables.zipWith (fun p a => p.multiplyBasis basis [a]) ancillas

/-- Pairs X and Z observables through ancillas.  A single kind of observables is returned
unchanged. -/
def pair (patch : Patch) (xs zs : List PauliProduct) (suggested : Option (List Coord)) :
    Except CompileError PairedObservables :=
  if xs.isEmpty || zs.isEmpty then do
    let observables := if xs.isEmpty then zs else xs
    checkCommuting "observables" 0 observables
    return { observables, ancillas := [] }
  else if xs.length ≠ zs.length then
    .error (.invalidConfiguration (.unpairedObservables xs.length zs.length))
  else do
    checkCommuting "X observables" 0 xs
    checkCommuting "Z observables" 0 zs
    checkPairs zs 0 xs
    let ancillas ← chooseAncillas patch xs.length suggested
    checkFree patch ancillas
    return { observables := attach .x xs ancillas ++ attach .z zs ancillas, ancillas }

end PairedObservables

end StabCircuit
