import Mathlib.Algebra.Module.LinearMap.End
import Mathlib.Algebra.Module.Pi
import Mathlib.Data.Set.Basic
import Mathlib.Logic.Equiv.Basic
import Mathlib.Tactic.Ring
import StabCircuit.Proofs.Meaning.PauliStrings

/-!
# Linear maps on states

A state is the function of its rational coefficients over Pauli strings.  Every
elementary operation is a sum of at most two *substitutions*, maps that read the
coefficient at a changed string and weigh it.  A substitution that looks at and
changes a set of qubits only commutes with every one on other qubits.
-/

namespace StabCircuit

/-- The coefficients of an operator over Pauli strings. -/
abbrev Coefficients : Type := PauliString → ℚ

/-- A linear map on coefficients. -/
abbrev StateMap : Type := Module.End ℚ Coefficients

namespace StateMap

/-- Reads the coefficient at a changed string and weighs it. -/
def substitute (weight : PauliString → ℚ) (change : PauliString → PauliString) : StateMap where
  toFun c s := weight s * c (change s)
  map_add' c d := by
    funext s
    exact mul_add _ _ _
  map_smul' a c := by
    funext s
    simp only [Pi.smul_apply, smul_eq_mul, RingHom.id_apply]
    ring

theorem substitute_apply (weight : PauliString → ℚ) (change : PauliString → PauliString)
    (c : Coefficients) (s : PauliString) :
    substitute weight change c s = weight s * c (change s) := rfl

theorem substitute_mul (w v : PauliString → ℚ) (f g : PauliString → PauliString) :
    substitute w f * substitute v g = substitute (fun s => w s * v (f s)) (fun s => g (f s)) := by
  refine LinearMap.ext fun c => funext fun s => ?_
  simp only [Module.End.mul_apply, substitute_apply, mul_assoc]

theorem substitute_congr {w v : PauliString → ℚ} {f g : PauliString → PauliString}
    (hw : ∀ s, w s = v s) (hf : ∀ s, f s = g s) : substitute w f = substitute v g := by
  rw [funext hw, funext hf]

theorem substitute_one : substitute (fun _ => 1) (fun s => s) = 1 := by
  refine LinearMap.ext fun c => funext fun s => ?_
  simp [substitute_apply]

/-! ## Maps on some of the qubits -/

/-- The weight depends on the Paulis on `S` only, and so does the change, which is confined to
`S`. -/
structure ActsWithin (S : Set Nat) (weight : PauliString → ℚ)
    (change : PauliString → PauliString) : Prop where
  weight_congr : ∀ s t : PauliString, (∀ q ∈ S, s q = t q) → weight s = weight t
  change_congr : ∀ s t : PauliString, (∀ q ∈ S, s q = t q) → ∀ q ∈ S, change s q = change t q
  change_off : ∀ (s : PauliString) (q : Nat), q ∉ S → change s q = s q

/-- A sum of substitutions on the qubits of a set. -/
inductive SupportedOn (S : Set Nat) : StateMap → Prop
  | substitute {weight : PauliString → ℚ} {change : PauliString → PauliString}
      (h : ActsWithin S weight change) : SupportedOn S (substitute weight change)
  | add {F G : StateMap} (hF : SupportedOn S F) (hG : SupportedOn S G) : SupportedOn S (F + G)

theorem ActsWithin.commute {S T : Set Nat} (hST : ∀ q ∈ S, q ∉ T)
    {w v : PauliString → ℚ} {f g : PauliString → PauliString}
    (hf : ActsWithin S w f) (hg : ActsWithin T v g) :
    Commute (StateMap.substitute w f) (StateMap.substitute v g) := by
  have hTS : ∀ q ∈ T, q ∉ S := fun q hT hS => hST q hS hT
  have hv : ∀ s, v (f s) = v s := fun s =>
    hg.weight_congr _ _ fun q hq => hf.change_off s q (hTS q hq)
  have hw : ∀ s, w (g s) = w s := fun s =>
    hf.weight_congr _ _ fun q hq => hg.change_off s q (hST q hq)
  have hfg : ∀ s, g (f s) = f (g s) := by
    intro s
    funext q
    by_cases hS : q ∈ S
    · rw [hg.change_off _ q (hST q hS)]
      exact hf.change_congr s (g s) (fun p hp => (hg.change_off s p (hST p hp)).symm) q hS
    · rw [hf.change_off (g s) q hS]
      by_cases hT : q ∈ T
      · exact hg.change_congr (f s) s (fun p hp => hf.change_off s p (hTS p hp)) q hT
      · rw [hg.change_off _ q hT, hg.change_off _ q hT, hf.change_off _ q hS]
  rw [Commute, SemiconjBy, substitute_mul, substitute_mul]
  exact substitute_congr (fun s => by rw [hv, hw, mul_comm]) hfg

/-- Maps on disjoint sets of qubits commute. -/
theorem SupportedOn.commute {S T : Set Nat} (hST : ∀ q ∈ S, q ∉ T) {F G : StateMap}
    (hF : SupportedOn S F) (hG : SupportedOn T G) : Commute F G := by
  induction hF with
  | substitute hf =>
    induction hG with
    | substitute hg => exact hf.commute hST hg
    | add _ _ ih₁ ih₂ => exact ih₁.add_right ih₂
  | add _ _ ih₁ ih₂ => exact ih₁.add_left ih₂

/-- Reads and changes one qubit. -/
def onQubit (weight : Option Basis → ℚ) (change : Option Basis → Option Basis) (q : Nat) :
    StateMap :=
  substitute (fun s => weight (s q)) (fun s => Function.update s q (change (s q)))

/-- Puts two Paulis on two qubits. -/
def place (s : PauliString) (a b : Nat) (x : Option Basis × Option Basis) : PauliString :=
  Function.update (Function.update s a x.1) b x.2

/-- Reads and changes two qubits. -/
def onPair (weight : Option Basis × Option Basis → ℚ)
    (change : Option Basis × Option Basis → Option Basis × Option Basis) (a b : Nat) :
    StateMap :=
  substitute (fun s => weight (s a, s b)) (fun s => place s a b (change (s a, s b)))

theorem supportedOn_one (S : Set Nat) : SupportedOn S 1 := by
  rw [← substitute_one]
  exact .substitute ⟨fun _ _ _ => rfl, fun _ _ h => h, fun _ _ _ => rfl⟩

theorem supportedOn_onQubit (w : Option Basis → ℚ) (f : Option Basis → Option Basis) (q : Nat) :
    SupportedOn {q} (onQubit w f q) := by
  refine .substitute ⟨fun s t h => ?_, fun s t h p hp => ?_, fun s p hp => ?_⟩
  · rw [h q rfl]
  · obtain rfl : p = q := hp
    rw [Function.update_self, Function.update_self, h p rfl]
  · exact Function.update_of_ne hp _ _

theorem supportedOn_onPair (w : Option Basis × Option Basis → ℚ)
    (f : Option Basis × Option Basis → Option Basis × Option Basis) (a b : Nat) :
    SupportedOn {a, b} (onPair w f a b) := by
  refine .substitute ⟨fun s t h => ?_, fun s t h p hp => ?_, fun s p hp => ?_⟩
  · rw [h a (.inl rfl), h b (.inr rfl)]
  · rw [h a (.inl rfl), h b (.inr rfl)]
    unfold place
    by_cases hb : p = b
    · subst hb
      rw [Function.update_self, Function.update_self]
    · obtain rfl : p = a := hp.resolve_right hb
      rw [Function.update_of_ne hb, Function.update_of_ne hb, Function.update_self,
        Function.update_self]
  · have ha : p ≠ a := fun h => hp (.inl h)
    have hb : p ≠ b := fun h => hp (.inr h)
    simp only [place, Function.update_of_ne hb, Function.update_of_ne ha]

theorem onQubit_mul (w v : Option Basis → ℚ) (f g : Option Basis → Option Basis) (q : Nat) :
    onQubit w f q * onQubit v g q = onQubit (fun p => w p * v (f p)) (fun p => g (f p)) q := by
  rw [onQubit, onQubit, substitute_mul]
  refine substitute_congr (fun s => ?_) (fun s => ?_)
  · rw [Function.update_self]
  · rw [Function.update_self, Function.update_idem]

theorem onQubit_congr {w v : Option Basis → ℚ} {f g : Option Basis → Option Basis}
    (hw : ∀ p, w p = v p) (hf : ∀ p, f p = g p) (q : Nat) : onQubit w f q = onQubit v g q := by
  rw [funext hw, funext hf]

section Place

variable {a b : Nat} (s : PauliString) (x y : Option Basis × Option Basis)

theorem place_left (h : a ≠ b) : place s a b x a = x.1 := by
  simp only [place, Function.update_of_ne h, Function.update_self]

theorem place_right : place s a b x b = x.2 := by
  simp only [place, Function.update_self]

theorem place_of_ne {q : Nat} (ha : q ≠ a) (hb : q ≠ b) : place s a b x q = s q := by
  simp only [place, Function.update_of_ne hb, Function.update_of_ne ha]

theorem place_comm (h : a ≠ b) : place s a b x = place s b a x.swap := by
  simp only [place, Prod.fst_swap, Prod.snd_swap]
  exact Function.update_comm h _ _ _

theorem eq_place_of (h : a ≠ b) {t : PauliString} (ha : t a = x.1) (hb : t b = x.2)
    (hoff : ∀ q, q ≠ a → q ≠ b → t q = s q) : t = place s a b x := by
  funext q
  by_cases hqb : q = b
  · rw [hqb, place_right, hb]
  · by_cases hqa : q = a
    · rw [hqa, place_left s x h, ha]
    · rw [place_of_ne s x hqa hqb, hoff q hqa hqb]

end Place

/-! ## Elementary maps -/

/-- Conjugation by a rotation of a qubit: the coefficient of a string is that of the string that
turns into it, with its sign. -/
def rotate (r : Rotation) (q : Nat) : StateMap := onQubit r.inverse.sign r.inverse.imageOf q

/-- What a controlled Pauli, `P` on the first qubit with `Q` on the second, turns two Paulis
into: each side is multiplied when the other side clashes. -/
def controlledImage (P Q : Basis) (x : Option Basis × Option Basis) :
    Option Basis × Option Basis :=
  (if Q.clashes x.2 then P.times x.1 else x.1, if P.clashes x.1 then Q.times x.2 else x.2)

/-- The sign under a controlled Pauli: negative when both sides clash, in opposite senses. -/
def controlledSign (P Q : Basis) (x : Option Basis × Option Basis) : ℚ :=
  if P.clashes x.1 ∧ Q.clashes x.2 ∧ P.phase x.1 ≠ Q.phase x.2 then -1 else 1

-- Controlled X takes X on the control to X on both, Z on the target to Z on both, and X with Z
-- to minus Y with Y.
example : controlledImage .z .x (some .x, none) = (some .x, some .x) := by decide
example : controlledImage .z .x (none, some .z) = (some .z, some .z) := by decide
example : controlledImage .z .x (some .x, some .z) = (some .y, some .y) ∧
    controlledSign .z .x (some .x, some .z) = -1 := by decide +kernel

/-- Conjugation by a controlled Pauli, which is its own inverse.  A pair that repeats its qubit
names no operation; it does nothing here. -/
def controlled (P Q : Basis) (a b : Nat) : StateMap :=
  if a = b then 1 else onPair (controlledSign P Q) (controlledImage P Q) a b

/-- Exchange of two qubits. -/
def exchange (a b : Nat) : StateMap := onPair (fun _ => 1) Prod.swap a b

/-- Replacement of a qubit by the positive eigenstate of a basis: the identity and the basis keep
what the identity has, and the other Paulis vanish. -/
def prepare (q : Nat) (b : Basis) : StateMap :=
  onQubit (fun p => if p = none ∨ p = some b then 1 else 0) (fun _ => none) q

/-- The sign of a real phase. -/
def phaseSign (k : ZMod 4) : ℚ := if k = 0 ∨ k = 1 then 1 else -1

/-- Projection on the outcome of measuring a product of Paulis; `true` is the negative one.  Of
the strings those remain that commute with the product, each averaged with its multiple. -/
def project (factors : List (Nat × Basis)) (outcome : Bool) : StateMap :=
  substitute (fun s => if commutesWith factors s then 1 / 2 else 0) (fun s => s) +
    substitute
      (fun s => if commutesWith factors s then
        (if outcome then -1 else 1) * phaseSign (multiplyFactors factors (0, s)).1 / 2 else 0)
      (fun s => (multiplyFactors factors (0, s)).2)

theorem supportedOn_rotate (r : Rotation) (q : Nat) : SupportedOn {q} (rotate r q) :=
  supportedOn_onQubit _ _ q

theorem supportedOn_prepare (q : Nat) (b : Basis) : SupportedOn {q} (prepare q b) :=
  supportedOn_onQubit _ _ q

theorem supportedOn_exchange (a b : Nat) : SupportedOn {a, b} (exchange a b) :=
  supportedOn_onPair _ _ a b

theorem supportedOn_controlled (P Q : Basis) (a b : Nat) :
    SupportedOn {a, b} (controlled P Q a b) := by
  unfold controlled
  split
  · exact supportedOn_one _
  · exact supportedOn_onPair _ _ a b

theorem supportedOn_project (factors : List (Nat × Basis)) (outcome : Bool) :
    SupportedOn {q | q ∈ factors.map Prod.fst} (project factors outcome) := by
  refine .add (.substitute ⟨fun s t h => ?_, fun s t h => h, fun s q _ => rfl⟩)
    (.substitute ⟨fun s t h => ?_, fun s t h => ?_, fun s q hq => ?_⟩)
  · rw [commutesWith_congr h]
  · have hphase := (multiplyFactors_congr (x := (0, s)) (y := (0, t)) (fun q hq => hq) rfl h).1
    rw [commutesWith_congr h, hphase]
  · exact (multiplyFactors_congr (x := (0, s)) (y := (0, t)) (fun q hq => hq) rfl h).2
  · exact multiplyFactors_of_notMem hq (0, s)

/-! ## Laws of single qubits -/

theorem rotate_identity (q : Nat) : rotate .identity q = 1 := by
  have hinv : Rotation.identity.inverse = .identity := by decide +kernel
  rw [rotate, hinv, ← substitute_one, onQubit]
  refine substitute_congr (fun s => Rotation.sign_identity _) (fun s => ?_)
  rw [Rotation.imageOf_identity, Function.update_eq_self]

theorem rotate_andThen (r s : Rotation) (q : Nat) :
    rotate (r.andThen s) q = rotate s q * rotate r q := by
  rw [rotate, rotate, rotate, onQubit_mul]
  exact onQubit_congr (r.sign_inverse_andThen s) (r.imageOf_inverse_andThen s) q

theorem prepare_mul_rotate (r : Rotation) (q : Nat) (b : Basis) :
    prepare q b * rotate r q = prepare q b := by
  rw [prepare, rotate, onQubit_mul]
  refine onQubit_congr (fun p => ?_) (fun p => ?_) q
  · rw [Rotation.sign_none, mul_one]
  · rw [Rotation.imageOf_none]

/-- Preparing Z and then turning Z into a basis prepares that basis. -/
theorem rotate_toZ_mul_prepare (q : Nat) (b : Basis) :
    rotate (.toZ b) q * prepare q .z = prepare q b := by
  have hweight : ∀ (b : Basis) (p : Option Basis),
      ((Rotation.toZ b).sign p *
        if (Rotation.toZ b).imageOf p = none ∨ (Rotation.toZ b).imageOf p = some .z then 1
        else 0) = if p = none ∨ p = some b then (1 : ℚ) else 0 := by decide +kernel
  rw [prepare, rotate, prepare, onQubit_mul, Rotation.inverse_toZ]
  exact onQubit_congr (hweight b) (fun _ => rfl) q

/-! ## Laws of pairs -/

theorem controlled_comm (P Q : Basis) (a b : Nat) : controlled P Q a b = controlled Q P b a := by
  unfold controlled
  by_cases h : a = b
  · rw [if_pos h, if_pos h.symm]
  · rw [if_neg h, if_neg fun h' => h h'.symm]
    refine substitute_congr (fun s => ?_) (fun s => ?_)
    · unfold controlledSign
      refine if_congr ?_ rfl rfl
      constructor
      · rintro ⟨hP, hQ, hne⟩
        exact ⟨hQ, hP, hne.symm⟩
      · rintro ⟨hQ, hP, hne⟩
        exact ⟨hP, hQ, hne.symm⟩
    · rw [place_comm _ _ h]
      rfl

theorem exchange_comm (a b : Nat) : exchange a b = exchange b a := by
  by_cases h : a = b
  · rw [h]
  · refine substitute_congr (fun s => rfl) (fun s => ?_)
    rw [place_comm _ _ h]
    rfl

theorem exchange_mul_rotate (r : Rotation) (a b : Nat) :
    exchange a b * rotate r a = rotate r b * exchange a b := by
  by_cases h : a = b
  · subst h
    have hone : exchange a a = 1 := by
      rw [← substitute_one]
      refine substitute_congr (fun s => rfl) (fun s => ?_)
      simp only [place, Prod.swap_prod_mk, Function.update_eq_self]
    rw [hone, one_mul, mul_one]
  · have hba : b ≠ a := fun h' => h h'.symm
    simp only [exchange, onPair, rotate, onQubit, substitute_mul]
    refine substitute_congr (fun s => ?_) (fun s => ?_)
    · rw [place_left _ _ h]
      simp only [Prod.swap_prod_mk, one_mul, mul_one]
    · have hupdate := eq_place_of s (r.inverse.imageOf (s b), s a) h
        (t := Function.update (place s a b (s b, s a)) a (r.inverse.imageOf (s b)))
        (by rw [Function.update_self])
        (by rw [Function.update_of_ne hba, place_right])
        (fun q ha hb => by rw [Function.update_of_ne ha, place_of_ne s _ ha hb])
      have hplace := eq_place_of s (r.inverse.imageOf (s b), s a) h
        (t := place (Function.update s b (r.inverse.imageOf (s b))) a b
          (r.inverse.imageOf (s b), s a))
        (by rw [place_left _ _ h]) (by rw [place_right])
        (fun q ha hb => by rw [place_of_ne _ _ ha hb, Function.update_of_ne hb])
      simp only [Prod.swap_prod_mk, place_left _ _ h, Function.update_self,
        Function.update_of_ne h]
      rw [hupdate, hplace]

theorem exchange_mul_controlled (P Q : Basis) (a b : Nat) :
    exchange a b * controlled P Q a b = controlled P Q b a * exchange a b := by
  unfold controlled
  by_cases h : a = b
  · rw [if_pos h, if_pos h.symm, mul_one, one_mul]
  · have hba : b ≠ a := fun h' => h h'.symm
    rw [if_neg h, if_neg hba]
    simp only [exchange, onPair, substitute_mul]
    refine substitute_congr (fun s => ?_) (fun s => ?_)
    · simp only [place_left _ _ h, place_right, Prod.swap_prod_mk, one_mul, mul_one]
    · simp only [place_left _ _ h, place_right, place_left _ _ hba, Prod.swap_prod_mk]
      rw [eq_place_of s (controlledImage P Q (s b, s a)) h
          (t := place (place s a b (s b, s a)) a b (controlledImage P Q (s b, s a)))
          (place_left _ _ h) (place_right _ _)
          (fun q ha hb => by rw [place_of_ne _ _ ha hb, place_of_ne _ _ ha hb])]
      exact (eq_place_of s (controlledImage P Q (s b, s a)) h (place_left _ _ h)
        (place_right _ _)
        (fun q ha hb => by rw [place_of_ne _ _ ha hb, place_of_ne _ _ hb ha])).symm

/-- A controlled Pauli becomes a controlled Z on its first side when that side is turned to Z. -/
theorem rotate_mul_controlled {a b : Nat} (h : a ≠ b) (P Q : Basis) :
    rotate (.toZ P) a * controlled P Q a b = controlled .z Q a b * rotate (.toZ P) a := by
  have hba : b ≠ a := fun h' => h h'.symm
  have hsign : ∀ (P Q : Basis) (x : Option Basis × Option Basis),
      (Rotation.toZ P).sign x.1 * controlledSign P Q ((Rotation.toZ P).imageOf x.1, x.2) =
        controlledSign .z Q x * (Rotation.toZ P).sign (controlledImage .z Q x).1 := by
    decide +kernel
  have himage : ∀ (P Q : Basis) (x : Option Basis × Option Basis),
      controlledImage P Q ((Rotation.toZ P).imageOf x.1, x.2) =
        ((Rotation.toZ P).imageOf (controlledImage .z Q x).1, (controlledImage .z Q x).2) := by
    decide +kernel
  simp only [rotate, controlled, if_neg h, Rotation.inverse_toZ, onQubit, onPair, substitute_mul]
  refine substitute_congr (fun s => ?_) (fun s => ?_)
  · rw [Function.update_self, Function.update_of_ne hba, place_left _ _ h]
    exact hsign P Q (s a, s b)
  · rw [Function.update_self, Function.update_of_ne hba, place_left _ _ h,
      himage P Q (s a, s b)]
    refine (eq_place_of _ _ h ?_ ?_ fun q ha hb => ?_).symm
    · rw [Function.update_self]
    · rw [Function.update_of_ne hba, place_right]
    · rw [Function.update_of_ne ha, place_of_ne _ _ ha hb, Function.update_of_ne ha]

/-! ## Turning a measured product -/

theorem phaseSign_add_two (k : ZMod 4) : phaseSign (k + 2) = -phaseSign k := by
  revert k
  decide +kernel

theorem multiplyFactors_phase (factors : List (Nat × Basis)) (k : ZMod 4) (s : PauliString) :
    multiplyFactors factors (k, s) =
      (k + (multiplyFactors factors (0, s)).1, (multiplyFactors factors (0, s)).2) := by
  induction factors with
  | nil => simp [multiplyFactors]
  | cons factor rest ih =>
    simp only [multiplyFactors, List.foldr_cons] at ih ⊢
    rw [ih]
    simp only [multiplyFactor, add_assoc]

/-- The string that a rotation of a qubit turns into a string, up to sign. -/
def turnBack (r : Rotation) (q : Nat) (s : PauliString) : PauliString :=
  Function.update s q (r.inverse.imageOf (s q))

theorem turn_turnBack (r : Rotation) (q : Nat) (k : ZMod 4) (s : PauliString) :
    r.turn q (k, turnBack r q s) = (k + if r.negates (turnBack r q s q) then 2 else 0, s) := by
  simp only [Rotation.turn, turnBack, Function.update_self, Rotation.imageOf_imageOf_inverse,
    Function.update_idem, Function.update_eq_self]

theorem turnBack_turned (r : Rotation) (q : Nat) (s : PauliString) :
    turnBack r q (Function.update s q (r.imageOf (s q))) = s := by
  simp only [turnBack, Function.update_self, Rotation.imageOf_inverse_imageOf,
    Function.update_idem, Function.update_eq_self]

theorem sign_turnBack (r : Rotation) (q : Nat) (s : PauliString) :
    r.sign (turnBack r q s q) = r.inverse.sign (s q) := by
  have h := r.sign_inverse_imageOf (r.inverse.imageOf (s q))
  rw [Rotation.imageOf_imageOf_inverse] at h
  simp only [turnBack, Function.update_self]
  exact h.symm

theorem commutesWith_turnBack (r : Rotation) (q : Nat) (factors : List (Nat × Basis))
    (s : PauliString) :
    commutesWith factors (turnBack r q s) = commutesWith (factors.map (r.turnFactor q)) s := by
  have h := r.commutesWith_turn q factors (0, turnBack r q s)
  rw [turn_turnBack] at h
  exact h.symm

/-- Multiplying by a product before a rotation is multiplying by the turned product after it: the
strings turn into each other and the signs agree. -/
theorem multiplyFactors_turnBack (r : Rotation) (q : Nat) (factors : List (Nat × Basis))
    (hpos : ∀ factor ∈ factors, factor.1 = q → (r.image factor.2).negative = false)
    (s : PauliString) :
    (multiplyFactors factors (0, turnBack r q s)).2 =
        turnBack r q (multiplyFactors (factors.map (r.turnFactor q)) (0, s)).2 ∧
      r.sign (turnBack r q s q) * phaseSign (multiplyFactors factors (0, turnBack r q s)).1 =
        phaseSign (multiplyFactors (factors.map (r.turnFactor q)) (0, s)).1 *
          r.inverse.sign ((multiplyFactors (factors.map (r.turnFactor q)) (0, s)).2 q) := by
  have h := r.turn_multiplyFactors q factors (0, turnBack r q s) hpos
  rw [turn_turnBack, multiplyFactors_phase (factors.map (r.turnFactor q))] at h
  generalize multiplyFactors factors (0, turnBack r q s) = x at h ⊢
  generalize multiplyFactors (factors.map (r.turnFactor q)) (0, s) = y at h ⊢
  obtain ⟨k, u⟩ := x
  obtain ⟨l, v⟩ := y
  simp only [Rotation.turn, Prod.mk.injEq] at h
  obtain ⟨hphase, rfl⟩ := h
  have hu := turnBack_turned r q u
  refine ⟨hu.symm, ?_⟩
  rw [← sign_turnBack, hu]
  unfold Rotation.sign
  cases hn : r.negates (u q) <;> cases hm : r.negates (turnBack r q s q) <;>
    simp only [hn, hm, if_true, if_false, Bool.false_eq_true, add_zero, zero_add] at hphase ⊢
  · rw [hphase]; ring
  · rw [hphase, add_comm, phaseSign_add_two]; ring
  · rw [← hphase, phaseSign_add_two]; ring
  · have hkl : k = l := add_right_cancel (hphase.trans (add_comm 2 l))
    rw [hkl]; ring

/-- Measuring a product and then rotating a qubit is rotating and then measuring the turned
product, as long as the factors on that qubit turn into positive ones. -/
theorem rotate_mul_project (r : Rotation) (q : Nat) (factors : List (Nat × Basis))
    (outcome : Bool)
    (hpos : ∀ factor ∈ factors, factor.1 = q → (r.image factor.2).negative = false) :
    rotate r q * project factors outcome =
      project (factors.map (r.turnFactor q)) outcome * rotate r q := by
  have hrotate : rotate r q = substitute (fun s => r.inverse.sign (s q)) (turnBack r q) := rfl
  have hproduct := multiplyFactors_turnBack r q factors hpos
  rw [hrotate, project, project, mul_add, add_mul]
  simp only [substitute_mul]
  congr 1
  · refine substitute_congr (fun s => ?_) (fun s => rfl)
    rw [commutesWith_turnBack, mul_comm]
  · refine substitute_congr (fun s => ?_) (fun s => (hproduct s).1)
    rw [commutesWith_turnBack]
    split
    · have h := (hproduct s).2
      rw [sign_turnBack] at h
      calc _ = (if outcome then -1 else 1) * (r.inverse.sign (s q) *
              phaseSign (multiplyFactors factors (0, turnBack r q s)).1) / 2 := by ring
        _ = _ := by rw [h]; ring
    · ring

end StateMap

end StabCircuit
