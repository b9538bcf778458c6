import Mathlib.Algebra.Field.Rat
import Mathlib.Data.Fintype.Option
import Mathlib.Data.ZMod.Basic
import Mathlib.Logic.Function.Basic
import Mathlib.Tactic.NormNum
import StabCircuit.Proofs.Circuit.Vocabulary

/-!
# Pauli strings

A Pauli string has a Pauli operator or the identity on every qubit.  Products of
strings are taken with their exact phase, a power of the imaginary unit, and a
rotation of one qubit turns strings into strings up to a sign.  Turning a product
of Paulis with its string turns the result, phase included.
-/

namespace StabCircuit

instance : Fintype Basis :=
  ⟨⟨(Basis.all : List Basis), by decide⟩, fun b => by cases b <;> decide⟩

/-- A Pauli or the identity (`none`) on every qubit. -/
abbrev PauliString : Type := Nat → Option Basis

namespace Basis

/-- The product with a Pauli or the identity, without its phase. -/
def times (b : Basis) : Option Basis → Option Basis
  | none => some b
  | some p => b.multiply p

/-- The phase of the product with a Pauli or the identity, as a power of the imaginary unit. -/
def phase (b : Basis) : Option Basis → ZMod 4
  | none => 0
  | some p => if b = p then 0 else if b.isCyclic p then 1 else 3

/-- Whether the Pauli anticommutes with a Pauli or the identity. -/
def clashes (b : Basis) : Option Basis → Bool
  | none => false
  | some p => b.anticommutes p

end Basis

/-! ## Rotations of one qubit -/

namespace Rotation

/-- What a Pauli or the identity turns into, without the sign. -/
def imageOf (r : Rotation) (p : Option Basis) : Option Basis := p.map fun b => (r.image b).basis

/-- Whether a Pauli or the identity turns into a negative one. -/
def negates (r : Rotation) (p : Option Basis) : Bool := p.any fun b => (r.image b).negative

/-- The sign that a Pauli or the identity gets. -/
def sign (r : Rotation) (p : Option Basis) : ℚ := if r.negates p then -1 else 1

@[simp] theorem imageOf_none (r : Rotation) : r.imageOf none = none := rfl

@[simp] theorem sign_none (r : Rotation) : r.sign none = 1 := rfl

theorem sign_mul_self (r : Rotation) (p : Option Basis) : r.sign p * r.sign p = 1 := by
  unfold sign
  split <;> norm_num

/-- A composition applies the second rotation to what the first gives. -/
theorem image_andThen (r s : Rotation) (b : Basis) :
    (r.andThen s).image b = s.apply (r.image b) := by
  have hy : ∀ r ∈ Rotation.all, ∀ s ∈ Rotation.all,
      (r.andThen s).image .y = s.apply (r.image .y) := by decide +kernel
  cases b with
  | x => rfl
  | y => exact hy r r.mem_all s s.mem_all
  | z => rfl

theorem imageOf_andThen (r s : Rotation) (p : Option Basis) :
    (r.andThen s).imageOf p = s.imageOf (r.imageOf p) := by
  cases p with
  | none => rfl
  | some b => simp [imageOf, image_andThen, apply]

theorem negates_andThen (r s : Rotation) (p : Option Basis) :
    (r.andThen s).negates p = (s.negates (r.imageOf p) ^^ r.negates p) := by
  cases p with
  | none => rfl
  | some b => simp [negates, imageOf, image_andThen, apply]

theorem sign_andThen (r s : Rotation) (p : Option Basis) :
    (r.andThen s).sign p = r.sign p * s.sign (r.imageOf p) := by
  simp only [sign, negates_andThen]
  cases r.negates p <;> cases s.negates (r.imageOf p) <;> norm_num

theorem andThen_inverse (r : Rotation) : r.andThen r.inverse = identity := by
  have h : ∀ r ∈ Rotation.all, r.andThen r.inverse = identity := by decide +kernel
  exact h r r.mem_all

theorem inverse_andThen (r : Rotation) : r.inverse.andThen r = identity := by
  have h : ∀ r ∈ Rotation.all, r.inverse.andThen r = identity := by decide +kernel
  exact h r r.mem_all

theorem imageOf_identity (p : Option Basis) : identity.imageOf p = p := by
  revert p
  decide

theorem sign_identity (p : Option Basis) : identity.sign p = 1 := by
  have h : ∀ p : Option Basis, identity.negates p = false := by decide
  simp [sign, h]

@[simp] theorem imageOf_inverse_imageOf (r : Rotation) (p : Option Basis) :
    r.inverse.imageOf (r.imageOf p) = p := by
  rw [← imageOf_andThen, andThen_inverse, imageOf_identity]

@[simp] theorem imageOf_imageOf_inverse (r : Rotation) (p : Option Basis) :
    r.imageOf (r.inverse.imageOf p) = p := by
  rw [← imageOf_andThen, inverse_andThen, imageOf_identity]

theorem sign_inverse_imageOf (r : Rotation) (p : Option Basis) :
    r.inverse.sign (r.imageOf p) = r.sign p := by
  have h : r.sign p * r.inverse.sign (r.imageOf p) = 1 := by
    rw [← sign_andThen, andThen_inverse, sign_identity]
  calc r.inverse.sign (r.imageOf p)
      = (r.sign p * r.sign p) * r.inverse.sign (r.imageOf p) := by rw [sign_mul_self, one_mul]
    _ = r.sign p * (r.sign p * r.inverse.sign (r.imageOf p)) := by rw [mul_assoc]
    _ = r.sign p := by rw [h, mul_one]

/-- The inverse of a composition undoes the second rotation first. -/
theorem imageOf_inverse_andThen (r s : Rotation) (p : Option Basis) :
    (r.andThen s).inverse.imageOf p = r.inverse.imageOf (s.inverse.imageOf p) := by
  have hp : p = (r.andThen s).imageOf (r.inverse.imageOf (s.inverse.imageOf p)) := by
    rw [imageOf_andThen, imageOf_imageOf_inverse, imageOf_imageOf_inverse]
  rw [hp, imageOf_inverse_imageOf, ← hp]

theorem sign_inverse_andThen (r s : Rotation) (p : Option Basis) :
    (r.andThen s).inverse.sign p =
      s.inverse.sign p * r.inverse.sign (s.inverse.imageOf p) := by
  obtain ⟨p, rfl⟩ : ∃ p', p = (r.andThen s).imageOf p' :=
    ⟨_, (imageOf_imageOf_inverse (r.andThen s) p).symm⟩
  rw [sign_inverse_imageOf, sign_andThen, imageOf_andThen, sign_inverse_imageOf,
    imageOf_inverse_imageOf, sign_inverse_imageOf, mul_comm]

/-- The rotations that take a basis to Z undo themselves. -/
theorem inverse_toZ (b : Basis) : (toZ b).inverse = toZ b := by
  revert b
  decide +kernel

end Rotation

/-! ## Products of Paulis with strings -/

/-- A Pauli string times a power of the imaginary unit. -/
abbrev PhasedString : Type := ZMod 4 × PauliString

/-- A Pauli on a qubit times a string. -/
def multiplyFactor (factor : Nat × Basis) (x : PhasedString) : PhasedString :=
  (x.1 + factor.2.phase (x.2 factor.1),
    Function.update x.2 factor.1 (factor.2.times (x.2 factor.1)))

/-- A product of Paulis on qubits times a string. -/
def multiplyFactors (factors : List (Nat × Basis)) (x : PhasedString) : PhasedString :=
  factors.foldr multiplyFactor x

/-- Whether a product of Paulis commutes with a string: an even number of factors clashes. -/
def commutesWith (factors : List (Nat × Basis)) (s : PauliString) : Bool :=
  (factors.countP fun factor => factor.2.clashes (s factor.1)) % 2 == 0

namespace Rotation

/-- What a string turns into when one qubit is rotated, the sign being part of the phase. -/
def turn (r : Rotation) (q : Nat) (x : PhasedString) : PhasedString :=
  (x.1 + if r.negates (x.2 q) then 2 else 0, Function.update x.2 q (r.imageOf (x.2 q)))

/-- A factor as it is after a rotation of one qubit, its sign left out. -/
def turnFactor (r : Rotation) (q : Nat) (factor : Nat × Basis) : Nat × Basis :=
  (factor.1, if factor.1 = q then (r.image factor.2).basis else factor.2)

theorem times_imageOf (r : Rotation) (b : Basis) (p : Option Basis) :
    r.imageOf (b.times p) = (r.image b).basis.times (r.imageOf p) := by
  have h : ∀ r ∈ Rotation.all, ∀ b : Basis, ∀ p : Option Basis,
      r.imageOf (b.times p) = (r.image b).basis.times (r.imageOf p) := by decide +kernel
  exact h r r.mem_all b p

theorem phase_imageOf (r : Rotation) (b : Basis) (p : Option Basis)
    (hpos : (r.image b).negative = false) :
    (b.phase p + if r.negates (b.times p) then 2 else 0) =
      (if r.negates p then 2 else 0) + (r.image b).basis.phase (r.imageOf p) := by
  have h : ∀ r ∈ Rotation.all, ∀ b : Basis, (r.image b).negative = false → ∀ p : Option Basis,
      (b.phase p + if r.negates (b.times p) then 2 else 0) =
        (if r.negates p then 2 else 0) + (r.image b).basis.phase (r.imageOf p) := by
    decide +kernel
  exact h r r.mem_all b hpos p

theorem clashes_imageOf (r : Rotation) (b : Basis) (p : Option Basis) :
    (r.image b).basis.clashes (r.imageOf p) = b.clashes p := by
  cases p with
  | none => rfl
  | some p =>
    have hinjective : (r.image b).basis = (r.image p).basis ↔ b = p :=
      ⟨fun h => r.image_basis_injective h, fun h => by rw [h]⟩
    rw [Bool.eq_iff_iff]
    simp [Basis.clashes, imageOf, Basis.anticommutes, hinjective]

theorem turn_multiplyFactor (r : Rotation) (q : Nat) (factor : Nat × Basis) (x : PhasedString)
    (hpos : factor.1 = q → (r.image factor.2).negative = false) :
    r.turn q (multiplyFactor factor x) = multiplyFactor (r.turnFactor q factor) (r.turn q x) := by
  obtain ⟨p, b⟩ := factor
  obtain ⟨k, s⟩ := x
  by_cases hp : p = q
  · subst hp
    have hphase := phase_imageOf r b (s p) (hpos rfl)
    simp only [turn, multiplyFactor, turnFactor, Function.update_self, Function.update_idem,
      if_true, times_imageOf, Prod.mk.injEq, and_true]
    rw [add_assoc, hphase, add_assoc]
  · have hq : ¬ q = p := fun h => hp h.symm
    simp only [turn, multiplyFactor, turnFactor, if_neg hp, Function.update_of_ne hp,
      Function.update_of_ne hq, Prod.mk.injEq]
    exact ⟨add_right_comm _ _ _, Function.update_comm hp _ _ _⟩

theorem turn_multiplyFactors (r : Rotation) (q : Nat) (factors : List (Nat × Basis))
    (x : PhasedString)
    (hpos : ∀ factor ∈ factors, factor.1 = q → (r.image factor.2).negative = false) :
    r.turn q (multiplyFactors factors x) =
      multiplyFactors (factors.map (r.turnFactor q)) (r.turn q x) := by
  induction factors with
  | nil => rfl
  | cons factor rest ih =>
    have hrest := ih fun f hf => hpos f (List.mem_cons_of_mem _ hf)
    have hhead := turn_multiplyFactor r q factor (multiplyFactors rest x)
      (hpos factor (by simp))
    simp only [multiplyFactors, List.map_cons, List.foldr_cons] at hrest hhead ⊢
    rw [hhead, hrest]

theorem commutesWith_turn (r : Rotation) (q : Nat) (factors : List (Nat × Basis))
    (x : PhasedString) :
    commutesWith (factors.map (r.turnFactor q)) (r.turn q x).2 = commutesWith factors x.2 := by
  have hsame : ∀ factor : Nat × Basis,
      (r.turnFactor q factor).2.clashes ((r.turn q x).2 (r.turnFactor q factor).1) =
        factor.2.clashes (x.2 factor.1) := by
    rintro ⟨p, b⟩
    by_cases hp : p = q
    · subst hp
      simp only [turnFactor, turn, if_true, Function.update_self, clashes_imageOf]
    · simp only [turnFactor, turn, if_neg hp, Function.update_of_ne hp]
  simp only [commutesWith, List.countP_map, Function.comp_def, hsame]

end Rotation

/-! ## What a product reads and changes -/

theorem multiplyFactors_of_notMem {factors : List (Nat × Basis)} {q : Nat}
    (hq : q ∉ factors.map Prod.fst) (x : PhasedString) :
    (multiplyFactors factors x).2 q = x.2 q := by
  induction factors with
  | nil => rfl
  | cons factor rest ih =>
    simp only [List.map_cons, List.mem_cons, not_or] at hq
    simp only [multiplyFactors, List.foldr_cons, multiplyFactor, Function.update_of_ne hq.1]
    exact ih hq.2

/-- The product with strings that agree on its qubits gives the same phase and the same Paulis
on these qubits. -/
theorem multiplyFactors_congr {factors : List (Nat × Basis)} {x y : PhasedString} {S : Set Nat}
    (hS : ∀ q ∈ factors.map Prod.fst, q ∈ S) (hphase : x.1 = y.1)
    (hxy : ∀ q ∈ S, x.2 q = y.2 q) :
    (multiplyFactors factors x).1 = (multiplyFactors factors y).1 ∧
      ∀ q ∈ S, (multiplyFactors factors x).2 q = (multiplyFactors factors y).2 q := by
  induction factors with
  | nil => exact ⟨hphase, hxy⟩
  | cons factor rest ih =>
    obtain ⟨hphase', hrest⟩ := ih fun q hq => hS q (List.mem_cons_of_mem _ hq)
    have hhere := hrest factor.1 (hS factor.1 (by simp))
    simp only [multiplyFactors, List.foldr_cons, multiplyFactor] at hphase' hrest hhere ⊢
    refine ⟨by rw [hphase', hhere], fun q hq => ?_⟩
    by_cases hqf : q = factor.1
    · subst hqf
      rw [Function.update_self, Function.update_self, hhere]
    · rw [Function.update_of_ne hqf, Function.update_of_ne hqf, hrest q hq]

theorem commutesWith_congr {factors : List (Nat × Basis)} {s t : PauliString}
    (h : ∀ q ∈ factors.map Prod.fst, s q = t q) :
    commutesWith factors s = commutesWith factors t := by
  have hcount : (factors.countP fun factor => factor.2.clashes (s factor.1)) =
      factors.countP fun factor => factor.2.clashes (t factor.1) := by
    refine List.countP_congr fun factor hfactor => ?_
    rw [h factor.1 (List.mem_map.2 ⟨factor, hfactor, rfl⟩)]
  rw [commutesWith, commutesWith, hcount]

end StabCircuit
