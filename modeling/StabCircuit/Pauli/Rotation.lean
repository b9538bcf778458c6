import StabCircuit.Pauli.Basis

/-!
# Single-qubit Clifford rotations

A rotation is given by the signed Paulis that X and Z turn into under
conjugation.  The two images anticommute, which leaves exactly 24 rotations;
each has its own gate name and composing two is exact.
-/

namespace StabCircuit

/-- A Pauli operator with a sign. -/
structure SignedPauli where
  /-- The Pauli without its sign. -/
  basis : Basis
  /-- Whether the sign is negative. -/
  negative : Bool
deriving DecidableEq, Inhabited

namespace SignedPauli

/-- The Pauli written after its sign. -/
def text (p : SignedPauli) : String := (if p.negative then "-" else "+") ++ p.basis.text

end SignedPauli

/-- A single-qubit Clifford operation, up to phase. -/
structure Rotation where
  /-- The image of X. -/
  x : SignedPauli
  /-- The image of Z. -/
  z : SignedPauli
  /-- The images anticommute, as X and Z do. -/
  distinct : x.basis ≠ z.basis := by decide
deriving DecidableEq

namespace Rotation

/-- The rotation that changes nothing. -/
def identity : Rotation := { x := ⟨.x, false⟩, z := ⟨.z, false⟩ }

instance : Inhabited Rotation := ⟨identity⟩

/-- The gate names of the 24 rotations. -/
def named : List (String × Rotation) :=
  [("I", identity),
    ("X", { x := ⟨.x, false⟩, z := ⟨.z, true⟩ }),
    ("Y", { x := ⟨.x, true⟩, z := ⟨.z, true⟩ }),
    ("Z", { x := ⟨.x, true⟩, z := ⟨.z, false⟩ }),
    ("H", { x := ⟨.z, false⟩, z := ⟨.x, false⟩ }),
    ("H_XY", { x := ⟨.y, false⟩, z := ⟨.z, true⟩ }),
    ("H_YZ", { x := ⟨.x, true⟩, z := ⟨.y, false⟩ }),
    ("H_NXY", { x := ⟨.y, true⟩, z := ⟨.z, true⟩ }),
    ("H_NXZ", { x := ⟨.z, true⟩, z := ⟨.x, true⟩ }),
    ("H_NYZ", { x := ⟨.x, true⟩, z := ⟨.y, true⟩ }),
    ("S", { x := ⟨.y, false⟩, z := ⟨.z, false⟩ }),
    ("S_DAG", { x := ⟨.y, true⟩, z := ⟨.z, false⟩ }),
    ("SQRT_X", { x := ⟨.x, false⟩, z := ⟨.y, true⟩ }),
    ("SQRT_X_DAG", { x := ⟨.x, false⟩, z := ⟨.y, false⟩ }),
    ("SQRT_Y", { x := ⟨.z, true⟩, z := ⟨.x, false⟩ }),
    ("SQRT_Y_DAG", { x := ⟨.z, false⟩, z := ⟨.x, true⟩ }),
    ("C_XYZ", { x := ⟨.y, false⟩, z := ⟨.x, false⟩ }),
    ("C_ZYX", { x := ⟨.z, false⟩, z := ⟨.y, false⟩ }),
    ("C_NXYZ", { x := ⟨.y, true⟩, z := ⟨.x, true⟩ }),
    ("C_XNYZ", { x := ⟨.y, true⟩, z := ⟨.x, false⟩ }),
    ("C_XYNZ", { x := ⟨.y, false⟩, z := ⟨.x, true⟩ }),
    ("C_NZYX", { x := ⟨.z, true⟩, z := ⟨.y, true⟩ }),
    ("C_ZNYX", { x := ⟨.z, false⟩, z := ⟨.y, true⟩ }),
    ("C_ZYNX", { x := ⟨.z, true⟩, z := ⟨.y, false⟩ })]

/-- The gate name of a rotation. -/
def name (r : Rotation) : String :=
  ((named.find? fun entry => entry.2 == r).map (·.1)).getD "I"

/-- Whether the rotation changes nothing. -/
def isIdentity (r : Rotation) : Bool := r == identity

/-- The rotation that takes a basis to Z; it is its own inverse. -/
def toZ : Basis → Rotation
  | .x => { x := ⟨.z, false⟩, z := ⟨.x, false⟩ }
  | .y => { x := ⟨.x, true⟩, z := ⟨.y, false⟩ }
  | .z => identity

/-- The square root of Z, or its inverse. -/
def rootZ : (inverse : Bool) → Rotation
  | false => { x := ⟨.y, false⟩, z := ⟨.z, false⟩ }
  | true => { x := ⟨.y, true⟩, z := ⟨.z, false⟩ }

/-- All rotations, by the image of X and then of Z, positive signs first. -/
def all : List Rotation :=
  Basis.all.flatMap fun bx => Basis.all.flatMap fun bz =>
    if h : bx ≠ bz then
      [false, true].flatMap fun nx => [false, true].map fun nz =>
        { x := ⟨bx, nx⟩, z := ⟨bz, nz⟩, distinct := h }
    else []

/-- The signed image of a Pauli; that of `Y = iXZ` follows from the other two. -/
def image (r : Rotation) : Basis → SignedPauli
  | .x => r.x
  | .z => r.z
  | .y =>
    { basis := r.x.basis.third r.z.basis
      negative := (r.x.basis.isCyclic r.z.basis ^^ r.x.negative) ^^ r.z.negative }

/-- The image of a signed Pauli. -/
def apply (r : Rotation) (p : SignedPauli) : SignedPauli :=
  { basis := (r.image p.basis).basis
    negative := (r.image p.basis).negative ^^ p.negative }

/-- Different Paulis have different images. -/
theorem image_basis_injective (r : Rotation) {a b : Basis}
    (h : (r.image a).basis = (r.image b).basis) : a = b := by
  obtain ⟨⟨bx, nx⟩, ⟨bz, nz⟩, hne⟩ := r
  revert hne h
  cases bx <;> cases bz <;> cases a <;> cases b <;> simp [image, Basis.third]

/-- This rotation followed by another. -/
def andThen (r next : Rotation) : Rotation :=
  { x := next.apply r.x
    z := next.apply r.z
    distinct := fun h => r.distinct (next.image_basis_injective h) }

/-- The rotation that undoes this one. -/
def inverse (r : Rotation) : Rotation :=
  (all.find? fun s => (r.andThen s).isIdentity).getD identity

end Rotation

end StabCircuit
