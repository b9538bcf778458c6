import Mathlib.Algebra.Group.Defs
import Mathlib.Data.List.Count
import StabCircuit.Pauli.Lettered
import StabCircuit.Proofs.Pauli.Commutation
import StabCircuit.Proofs.Support.Results

/-!
# The group of Pauli products

On every qubit factors multiply as in the group of four elements, and a product is known
by its factors.  So products form a commutative group in which every element is its own
inverse, and whether two of them commute is a bilinear form on it.  Multiplying terms in is
multiplying by their product, in whatever order and shape the terms arrive.
-/

namespace StabCircuit

namespace PauliProduct

variable {p q : PauliProduct}

/-- A product is known by its factors. -/
theorem eq_of_get? (h : ∀ c, p.get? c = q.get? c) : p = q := by
  obtain ⟨factors⟩ := p
  obtain ⟨factors'⟩ := q
  exact congrArg PauliProduct.mk (OrderedMap.eq_of_get? h)

/-! ## Factors on one qubit -/

/-- The product of what two products have on one qubit; `none` is the identity. -/
def combine (x : Option Basis) : Option Basis → Option Basis
  | none => x
  | some B => multiplyFactor B x

theorem combine_none_left (x : Option Basis) : combine none x = x := by
  revert x
  decide

theorem combine_comm (x y : Option Basis) : combine x y = combine y x := by
  revert x y
  decide

theorem combine_assoc (x y z : Option Basis) :
    combine (combine x y) z = combine x (combine y z) := by
  revert x y z
  decide

theorem combine_self (x : Option Basis) : combine x x = none := by
  revert x
  decide

/-! ## Terms one after another -/

theorem multiplyTerms_cons (p : PauliProduct) (term : Coord × Basis)
    (terms : List (Coord × Basis)) :
    p.multiplyTerms (term :: terms) = (p.multiplyTerm term.1 term.2).multiplyTerms terms := rfl

theorem multiplyTerms_append (p : PauliProduct) (terms more : List (Coord × Basis)) :
    p.multiplyTerms (terms ++ more) = (p.multiplyTerms terms).multiplyTerms more :=
  List.foldl_append

theorem multiplyTerm_right_comm (p : PauliProduct) (a b : Coord) (B C : Basis) :
    (p.multiplyTerm a B).multiplyTerm b C = (p.multiplyTerm b C).multiplyTerm a B := by
  apply eq_of_get?
  intro c
  rw [get?_multiplyTerm, get?_multiplyTerm, get?_multiplyTerm, get?_multiplyTerm,
    get?_multiplyTerm, get?_multiplyTerm]
  by_cases hab : a = b
  · subst hab
    by_cases hac : a = c
    · have hswap : ∀ x y z, combine (combine x y) z = combine (combine x z) y := by decide
      simpa [hac, combine] using hswap (p.get? c) (some B) (some C)
    · simp [hac]
  · by_cases hac : a = c
    · simp [hac, Ne.symm (hac ▸ hab : c ≠ b)]
    · simp [hac, hab]

/-- The order of terms does not matter. -/
theorem multiplyTerms_perm {terms terms' : List (Coord × Basis)} (h : terms.Perm terms')
    (p : PauliProduct) : p.multiplyTerms terms = p.multiplyTerms terms' := by
  have hcomm : RightCommutative fun (p : PauliProduct) (term : Coord × Basis) =>
      p.multiplyTerm term.1 term.2 :=
    ⟨fun p s t => multiplyTerm_right_comm p s.1 t.1 s.2 t.2⟩
  exact h.foldl_eq p

theorem get?_multiplyTerms_of_notMem {c : Coord} {terms : List (Coord × Basis)}
    (h : c ∉ terms.map Prod.fst) (p : PauliProduct) :
    (p.multiplyTerms terms).get? c = p.get? c := by
  induction terms generalizing p with
  | nil => rfl
  | cons term terms ih =>
    rw [List.map_cons, List.mem_cons, not_or] at h
    rw [multiplyTerms_cons, ih h.2, get?_multiplyTerm, if_neg (Ne.symm h.1)]

/-- Products multiply qubit by qubit. -/
theorem get?_mul (p q : PauliProduct) (c : Coord) :
    (p * q).get? c = combine (p.get? c) (q.get? c) := by
  obtain ⟨rest, hterms⟩ : ∃ rest, q.terms.Perm ((q.get? c).toList.map (Prod.mk c) ++ rest) := by
    obtain ⟨rest, hterms, -⟩ := q.factors.alter_perm c id
    exact ⟨rest, hterms⟩
  have hnodup : (q.terms.map Prod.fst).Nodup := q.factors.nodup_keys
  rw [(hterms.map Prod.fst).nodup_iff] at hnodup
  have hmul : p * q = p.multiplyTerms ((q.get? c).toList.map (Prod.mk c) ++ rest) :=
    multiplyTerms_perm hterms p
  rw [hmul, multiplyTerms_append]
  cases hq : q.get? c with
  | none =>
    have hkey : c ∉ q.terms.map Prod.fst := fun hmem => by
      simpa [hq] using mem_qubits_iff.1 hmem
    rw [(hterms.map Prod.fst).mem_iff, List.map_append, List.mem_append, not_or] at hkey
    rw [get?_multiplyTerms_of_notMem hkey.2]
    rfl
  | some B =>
    rw [hq] at hnodup
    have hrest : c ∉ rest.map Prod.fst := (List.nodup_cons.1 hnodup).1
    rw [get?_multiplyTerms_of_notMem hrest]
    exact (get?_multiplyTerm p c c B).trans (if_pos rfl)

/-! ## The group -/

instance : CommGroup PauliProduct where
  mul_assoc p q r := by
    apply eq_of_get?
    intro c
    rw [get?_mul, get?_mul, get?_mul, get?_mul, combine_assoc]
  one := identity
  one_mul p := by
    apply eq_of_get?
    intro c
    exact (get?_mul identity p c).trans (combine_none_left _)
  mul_one _ := rfl
  inv p := p
  inv_mul_cancel p := by
    apply eq_of_get?
    intro c
    exact (get?_mul p p c).trans (combine_self _)
  mul_comm p q := by
    apply eq_of_get?
    intro c
    rw [get?_mul, get?_mul, combine_comm]

theorem mul_self (p : PauliProduct) : p * p = 1 := inv_mul_cancel p

/-- The terms of a product give the product back. -/
theorem ofTerms_terms (p : PauliProduct) : ofTerms p.terms = p := one_mul p

theorem multiplyTerm_eq_mul (p : PauliProduct) (a : Coord) (B : Basis) :
    p.multiplyTerm a B = p * ofTerms [(a, B)] := by
  apply eq_of_get?
  intro c
  have hsingle : (ofTerms [(a, B)]).get? c = if a = c then some B else none :=
    get?_multiplyTerm identity a c B
  rw [get?_mul, hsingle, get?_multiplyTerm]
  by_cases hac : a = c
  · rw [if_pos hac, if_pos hac, hac]
    rfl
  · rw [if_neg hac, if_neg hac]
    rfl

/-- Multiplying terms in is multiplying by their product. -/
theorem multiplyTerms_eq_mul (p : PauliProduct) (terms : List (Coord × Basis)) :
    p.multiplyTerms terms = p * ofTerms terms := by
  induction terms generalizing p with
  | nil => rfl
  | cons term terms ih =>
    have hfirst : ofTerms (term :: terms) = ofTerms [term] * ofTerms terms := ih (ofTerms [term])
    rw [multiplyTerms_cons, ih, multiplyTerm_eq_mul, hfirst, mul_assoc]

theorem multiplyTerms_eq_ofTerms (p : PauliProduct) (terms : List (Coord × Basis)) :
    p.multiplyTerms terms = ofTerms (p.terms ++ terms) := by
  have happend : ofTerms (p.terms ++ terms) = (ofTerms p.terms).multiplyTerms terms :=
    multiplyTerms_append identity p.terms terms
  rw [happend, ofTerms_terms]

/-! ## Commutation as a bilinear form -/

/-- Terms change whether two products commute with a third one alike. -/
theorem commutes_multiplyTerms (p r q : PauliProduct) (terms : List (Coord × Basis)) :
    (p.multiplyTerms terms).commutes q =
      ((p.commutes q == r.commutes q) == (r.multiplyTerms terms).commutes q) := by
  induction terms generalizing p r with
  | nil =>
    have hbool : ∀ x y : Bool, x = ((x == y) == y) := by decide
    exact hbool _ _
  | cons term terms ih =>
    have hbool : ∀ x y z : Bool, (xor x z == xor y z) = (x == y) := by decide
    rw [multiplyTerms_cons, multiplyTerms_cons,
      ih (p.multiplyTerm term.1 term.2) (r.multiplyTerm term.1 term.2), commutes_multiplyTerm,
      commutes_multiplyTerm, hbool]

/-- A product commutes with a product of two when it commutes with both or with neither. -/
theorem commutes_mul (p q r : PauliProduct) :
    p.commutes (q * r) = (p.commutes q == p.commutes r) := by
  have hone : identity.commutes p = true := rfl
  have hright : identity.multiplyTerms r.terms = r := ofTerms_terms r
  have hterms := commutes_multiplyTerms q identity p r.terms
  rw [hone, hright, beq_true] at hterms
  calc p.commutes (q * r) = (q.multiplyTerms r.terms).commutes p := commutes_comm p (q * r)
    _ = (q.commutes p == r.commutes p) := hterms
    _ = (p.commutes q == p.commutes r) := by rw [commutes_comm q, commutes_comm r]

/-! ## Qubits that are kept -/

/-- The terms on a qubit multiply to the identity: the numbers of those with X, with Y and with Z
are all even or all odd. -/
def CancelOn (c : Coord) (terms : List (Coord × Basis)) : Prop :=
  ∀ B C : Basis, terms.count (c, B) % 2 = terms.count (c, C) % 2

theorem get?_ofTerms_concat (terms : List (Coord × Basis)) (a c : Coord) (A : Basis) :
    (ofTerms (terms ++ [(a, A)])).get? c =
      if a = c then multiplyFactor A ((ofTerms terms).get? c) else (ofTerms terms).get? c := by
  have happend : ofTerms (terms ++ [(a, A)]) = (ofTerms terms).multiplyTerm a A :=
    multiplyTerms_append identity terms [(a, A)]
  rw [happend, get?_multiplyTerm]
  by_cases hac : a = c
  · rw [hac]
  · rw [if_neg hac, if_neg hac]

theorem odd_count_concat (terms : List (Coord × Basis)) (a c : Coord) (A B : Basis) :
    ((terms ++ [(a, A)]).count (c, B) % 2 == 1) =
      xor (terms.count (c, B) % 2 == 1) (decide (a = c) && decide (A = B)) := by
  rw [List.count_append, List.count_singleton]
  by_cases hsame : a = c ∧ A = B
  · obtain ⟨rfl, rfl⟩ := hsame
    rcases Nat.mod_two_eq_zero_or_one (terms.count (a, A)) with h | h <;> simp [h, Nat.add_mod]
  · have hne : (a, A) ≠ (c, B) := by simpa using hsame
    rw [← Bool.decide_and, decide_eq_false hsame, Bool.xor_false, if_neg (by simpa using hne),
      Nat.add_zero]

/-- The factor that terms leave on a qubit is the one whose number has a parity of its own. -/
theorem parity_count (c : Coord) (terms : List (Coord × Basis)) :
    ∃ r : Bool, ∀ B, (terms.count (c, B) % 2 == 1) =
      xor r ((ofTerms terms).get? c == some B) := by
  induction terms using List.reverseRecOn with
  | nil => exact ⟨false, fun B => rfl⟩
  | append_singleton terms term ih =>
    obtain ⟨a, A⟩ := term
    obtain ⟨r, hr⟩ := ih
    by_cases hac : a = c
    · -- one more term with `A` turns the parity of `A` alone
      have hflip : ∀ (x : Option Basis) (A : Basis), ∃ s : Bool, ∀ B,
          xor (x == some B) (decide (A = B)) = xor s (multiplyFactor A x == some B) := by decide
      obtain ⟨s, hs⟩ := hflip ((ofTerms terms).get? c) A
      refine ⟨xor r s, fun B => ?_⟩
      rw [odd_count_concat, hr, get?_ofTerms_concat, if_pos hac, decide_eq_true hac, Bool.true_and,
        Bool.xor_assoc, hs, Bool.xor_assoc]
    · refine ⟨r, fun B => ?_⟩
      rw [odd_count_concat, hr, get?_ofTerms_concat, if_neg hac, decide_eq_false hac,
        Bool.false_and, Bool.xor_false]

/-- A qubit is kept when the terms on it do not cancel. -/
theorem mem_qubits_ofTerms {c : Coord} {terms : List (Coord × Basis)} :
    c ∈ (ofTerms terms).qubits ↔ ¬ CancelOn c terms := by
  obtain ⟨r, hr⟩ := parity_count c terms
  have hparity : ∀ m n : Nat, m % 2 = n % 2 ↔ (m % 2 == 1) = (n % 2 == 1) := by
    intro m n
    rcases Nat.mod_two_eq_zero_or_one m with hm | hm <;>
      rcases Nat.mod_two_eq_zero_or_one n with hn | hn <;> simp [hm, hn]
  have hfactor : ∀ (r : Bool) (x : Option Basis),
      x.isSome = true ↔ ¬ ∀ B C : Basis, xor r (x == some B) = xor r (x == some C) := by decide
  rw [mem_qubits_iff, hfactor r, CancelOn]
  simp only [hparity, hr]

/-- A qubit of a product is one of its terms. -/
theorem mem_of_mem_qubits_ofTerms {c : Coord} {terms : List (Coord × Basis)}
    (h : c ∈ (ofTerms terms).qubits) : c ∈ terms.map Prod.fst := by
  rw [mem_qubits_ofTerms] at h
  by_contra hnone
  refine h fun B C => ?_
  have hzero : ∀ B, terms.count (c, B) = 0 := fun B =>
    List.count_eq_zero.2 fun hmem => hnone (List.mem_map_of_mem hmem)
  rw [hzero, hzero]

theorem get?_ofTerms_of_nodup {c : Coord} {terms : List (Coord × Basis)}
    (hnodup : (terms.map Prod.fst).Nodup) {B : Basis} :
    (ofTerms terms).get? c = some B ↔ (c, B) ∈ terms := by
  induction terms using List.reverseRecOn with
  | nil =>
    constructor
    · intro h
      cases h
    · intro h
      cases h
  | append_singleton terms term ih =>
    obtain ⟨a, A⟩ := term
    rw [List.map_append, List.nodup_append] at hnodup
    obtain ⟨hterms, -, happart⟩ := hnodup
    rw [get?_ofTerms_concat, List.mem_append, List.mem_singleton, Prod.mk.injEq, ← ih hterms]
    by_cases hac : a = c
    · subst hac
      have hfresh : a ∉ terms.map Prod.fst := fun hmem => happart a hmem a (by simp) rfl
      have hnone : (ofTerms terms).get? a = none := get?_multiplyTerms_of_notMem hfresh identity
      rw [if_pos rfl, hnone]
      simp [multiplyFactor, eq_comm]
    · rw [if_neg hac]
      simp [Ne.symm hac]

/-- Terms on different qubits are the factors of their product. -/
theorem terms_ofTerms_perm {terms : List (Coord × Basis)} (hnodup : (terms.map Prod.fst).Nodup) :
    (ofTerms terms).terms.Perm terms := by
  have hfactors : (ofTerms terms).terms.Nodup := (ofTerms terms).factors.nodup_keys.of_map
  rw [List.perm_ext_iff_of_nodup hfactors hnodup.of_map]
  rintro ⟨c, B⟩
  exact OrderedMap.mem_entries_iff.trans (get?_ofTerms_of_nodup hnodup)

/-! ## Shapes in which terms are given -/

/-- The shapes in which terms are given. -/
inductive Shape where
  /-- A single term. -/
  | term (qubit : Coord) (basis : Basis)
  /-- Qubits that share a basis. -/
  | basis (basis : Basis) (qubits : List Coord)
  /-- Pairs of a qubit and a basis. -/
  | pairs (terms : List (Coord × Basis))
  /-- Groups of qubits that share a basis. -/
  | groups (groups : List (Basis × List Coord))
  /-- Pairs with lettered bases. -/
  | letteredPairs (terms : List (Coord × String))
  /-- Groups with lettered bases. -/
  | letteredGroups (groups : List (String × List Coord))
  /-- Another product. -/
  | product (factor : PauliProduct)

/-- Multiplies what is given in a shape into a product. -/
def multiplyShape (p : PauliProduct) : Shape → Except CircuitError PauliProduct
  | .term qubit basis => .ok (p.multiplyTerm qubit basis)
  | .basis basis qubits => .ok (p.multiplyBasis basis qubits)
  | .pairs terms => .ok (p.multiplyTerms terms)
  | .groups groups => .ok (p.multiplyGroups groups)
  | .letteredPairs terms => p.multiplyLettered terms
  | .letteredGroups groups => p.multiplyLetteredGroups groups
  | .product factor => .ok (p.multiply factor)

/-- The terms of groups of qubits that share a basis. -/
def groupTerms (groups : List (Basis × List Coord)) : List (Coord × Basis) :=
  groups.flatMap fun group => group.2.map fun qubit => (qubit, group.1)

/-- The terms that a shape lists, where letters stand for bases and a product for any terms that
it is the product of. -/
inductive Shape.Lists : Shape → List (Coord × Basis) → Prop
  | term (qubit : Coord) (basis : Basis) : Lists (.term qubit basis) [(qubit, basis)]
  | basis (basis : Basis) (qubits : List Coord) :
      Lists (.basis basis qubits) (qubits.map fun qubit => (qubit, basis))
  | pairs (terms : List (Coord × Basis)) : Lists (.pairs terms) terms
  | groups (groups : List (Basis × List Coord)) : Lists (.groups groups) (groupTerms groups)
  | letteredPairs {lettered : List (Coord × String)} {terms : List (Coord × Basis)}
      (h : List.Forall₂ (fun l t => l.1 = t.1 ∧ Basis.read l.2 = .ok t.2) lettered terms) :
      Lists (.letteredPairs lettered) terms
  | letteredGroups {lettered : List (String × List Coord)} {groups : List (Basis × List Coord)}
      (h : List.Forall₂ (fun l g => Basis.read l.1 = .ok g.1 ∧ l.2 = g.2) lettered groups) :
      Lists (.letteredGroups lettered) (groupTerms groups)
  | product (terms : List (Coord × Basis)) : Lists (.product (ofTerms terms)) terms

theorem multiplyGroups_eq (p : PauliProduct) (groups : List (Basis × List Coord)) :
    p.multiplyGroups groups = p.multiplyTerms (groupTerms groups) := by
  induction groups generalizing p with
  | nil => rfl
  | cons group groups ih =>
    have hrest : groupTerms (group :: groups) =
        group.2.map (fun qubit => (qubit, group.1)) ++ groupTerms groups := List.flatMap_cons
    rw [hrest, multiplyTerms_append]
    exact ih (p.multiplyBasis group.1 group.2)

theorem multiplyLettered_eq_ok {lettered : List (Coord × String)} {terms : List (Coord × Basis)}
    (h : List.Forall₂ (fun l t => l.1 = t.1 ∧ Basis.read l.2 = .ok t.2) lettered terms)
    (p : PauliProduct) : p.multiplyLettered lettered = .ok (p.multiplyTerms terms) := by
  induction h generalizing p with
  | nil => rfl
  | @cons l t _ _ hread _ ih =>
    obtain ⟨qubit, letter⟩ := l
    obtain ⟨rfl, hbasis⟩ := hread
    rw [multiplyLettered, hbasis]
    exact ih (p.multiplyTerm _ t.2)

theorem multiplyLetteredGroups_eq_ok {lettered : List (String × List Coord)}
    {groups : List (Basis × List Coord)}
    (h : List.Forall₂ (fun l g => Basis.read l.1 = .ok g.1 ∧ l.2 = g.2) lettered groups)
    (p : PauliProduct) : p.multiplyLetteredGroups lettered = .ok (p.multiplyGroups groups) := by
  induction h generalizing p with
  | nil => rfl
  | @cons l g _ _ hread _ ih =>
    obtain ⟨letter, qubits⟩ := l
    obtain ⟨hbasis, rfl⟩ := hread
    rw [multiplyLetteredGroups, hbasis]
    exact ih (p.multiplyBasis g.1 _)

/-- Whatever shape lists terms, multiplying it in multiplies them in. -/
theorem multiplyShape_eq_ok {shape : Shape} {terms : List (Coord × Basis)}
    (h : shape.Lists terms) (p : PauliProduct) :
    p.multiplyShape shape = .ok (p.multiplyTerms terms) := by
  cases h with
  | term qubit basis => rfl
  | basis basis qubits => rfl
  | pairs => rfl
  | groups groups => rw [multiplyShape, multiplyGroups_eq]
  | letteredPairs h => exact multiplyLettered_eq_ok h p
  | letteredGroups h => rw [multiplyShape, multiplyLetteredGroups_eq_ok h, multiplyGroups_eq]
  | product =>
    rw [multiplyTerms_eq_mul]
    rfl

/-- Shapes one after another multiply in all that they list. -/
theorem foldlM_multiplyShape {shapes : List Shape} {parts : List (List (Coord × Basis))}
    (h : List.Forall₂ Shape.Lists shapes parts) (p : PauliProduct) :
    shapes.foldlM multiplyShape p = .ok (p.multiplyTerms parts.flatten) := by
  induction h generalizing p with
  | nil => rfl
  | @cons shape part _ _ hlists _ ih =>
    rw [List.foldlM_cons, multiplyShape_eq_ok hlists, List.flatten_cons, multiplyTerms_append]
    exact ih (p.multiplyTerms part)

/-- Products form a commutative group of exponent two on which commutation is a symmetric
bilinear form that vanishes on the diagonal.  Terms multiply in alike in every order and shape,
a qubit is kept when the terms on it do not cancel, and the listed terms of a product give it
back. -/
theorem symplectic_group :
    ((∀ a b c : PauliProduct, a * b * c = a * (b * c)) ∧ (∀ a b : PauliProduct, a * b = b * a) ∧
      ∀ a : PauliProduct, a * a = identity ∧ identity * a = a ∧ a * identity = a) ∧
    ((∀ a b : PauliProduct, a.commutes b = b.commutes a) ∧
      (∀ a : PauliProduct, a.commutes a = true) ∧
      ∀ a b c : PauliProduct, a.commutes (b * c) = true ↔ a.commutes b = a.commutes c) ∧
    (∀ (p : PauliProduct) (terms : List (Coord × Basis)) (shapes : List Shape)
      (parts : List (List (Coord × Basis))), List.Forall₂ Shape.Lists shapes parts →
        parts.flatten.Perm terms →
          shapes.foldlM multiplyShape p = .ok (p.multiplyTerms terms)) ∧
    (∀ (p : PauliProduct) (terms : List (Coord × Basis)) (c : Coord),
      c ∈ (p.multiplyTerms terms).qubits ↔ ¬ CancelOn c (p.terms ++ terms)) ∧
    ∀ a : PauliProduct, ofTerms a.terms = a := by
  have hgroup : ∀ a : PauliProduct, a * a = identity ∧ identity * a = a ∧ a * identity = a :=
    fun a => ⟨mul_self a, one_mul a, mul_one a⟩
  have hbilinear : ∀ a b c : PauliProduct,
      a.commutes (b * c) = true ↔ a.commutes b = a.commutes c := by
    intro a b c
    rw [commutes_mul, beq_iff_eq]
  refine ⟨⟨mul_assoc, mul_comm, hgroup⟩, ⟨commutes_comm, commutes_self, hbilinear⟩, ?_, ?_,
    ofTerms_terms⟩
  · intro p terms shapes parts hshapes hperm
    rw [foldlM_multiplyShape hshapes, multiplyTerms_perm hperm]
  · intro p terms c
    rw [multiplyTerms_eq_ofTerms, mem_qubits_ofTerms]

/-- A qubit of the real axis. -/
def onAxis (x : Scalar) : Coord := ⟨x, 0⟩

/-- Terms that cancel on the origin and make Y next to it. -/
def cancellingTerms : List (Coord × Basis) :=
  [(onAxis 0, .x), (onAxis 1, .z), (onAxis 0, .y), (onAxis 1, .x), (onAxis 0, .z)]

theorem symplectic_group_cancellingTerms :
    let shapes : List Shape := [.letteredGroups [("x", [onAxis 1, onAxis 0])],
      .product (ofTerms [(onAxis 0, .z), (onAxis 0, .y)]), .letteredPairs [(onAxis 1, "Z")]]
    let parts := [groupTerms [(.x, [onAxis 1, onAxis 0])], [(onAxis 0, .z), (onAxis 0, .y)],
      [(onAxis 1, .z)]]
    List.Forall₂ Shape.Lists shapes parts ∧ parts.flatten.Perm cancellingTerms ∧
      shapes.foldlM multiplyShape identity = .ok (identity.multiplyTerms cancellingTerms) ∧
      (onAxis 0 ∈ (identity.multiplyTerms cancellingTerms).qubits ↔
        ¬ CancelOn (onAxis 0) (identity.terms ++ cancellingTerms)) := by
  intro shapes parts
  have hshapes : List.Forall₂ Shape.Lists shapes parts :=
    .cons (.letteredGroups (.cons ⟨rfl, rfl⟩ .nil))
      (.cons (.product _) (.cons (.letteredPairs (.cons ⟨rfl, rfl⟩ .nil)) .nil))
  have hperm : parts.flatten.Perm cancellingTerms := by decide +kernel
  exact ⟨hshapes, hperm, symplectic_group.2.2.1 identity _ shapes parts hshapes hperm,
    symplectic_group.2.2.2.1 identity cancellingTerms (onAxis 0)⟩

end PauliProduct

end StabCircuit
