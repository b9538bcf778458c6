import Mathlib.Algebra.Group.Nat.Even
import Mathlib.Data.Finset.SymmDiff
import StabCircuit.Pauli.Product
import StabCircuit.Proofs.Meaning.PauliStrings
import StabCircuit.Proofs.Support.OrderedMaps

/-!
# Commutation of Pauli products

Two products commute when they clash on an even number of qubits.  Clashing does not
depend on the order of the two, and multiplying a factor into one of them changes it
on the qubit of that factor alone, so that a factor on a qubit that the other product
leaves out does not count.
-/

namespace StabCircuit

namespace PauliProduct

variable {p q : PauliProduct} {a b : Coord} {B C : Basis}

/-! ## Factors -/

theorem mem_qubits_iff : a ∈ p.qubits ↔ (p.get? a).isSome = true := OrderedMap.mem_keys_iff

theorem get?_eq_none (h : a ∉ p.qubits) : p.get? a = none := by
  rw [mem_qubits_iff] at h
  simpa using h

theorem get?_of_mem_terms {term : Coord × Basis} (h : term ∈ p.terms) :
    p.get? term.1 = some term.2 :=
  OrderedMap.mem_entries_iff.1 h

theorem get?_multiplyTerm (p : PauliProduct) (a c : Coord) (B : Basis) :
    (p.multiplyTerm a B).get? c = if a = c then multiplyFactor B (p.get? a) else p.get? c := by
  have hget := p.factors.get?_alter a c (multiplyFactor B)
  simp only [Std.LawfulEqOrd.compare_eq_iff_eq] at hget
  exact hget

/-! ## Clashes -/

/-- The qubits on which the factors of two products anticommute. -/
def clashing (p q : PauliProduct) : Finset Coord :=
  p.qubits.toFinset.filter fun c => (p.get? c).any fun basis => basis.clashes (q.get? c)

theorem mem_clashing {c : Coord} :
    c ∈ p.clashing q ↔ (p.get? c).any (fun basis => basis.clashes (q.get? c)) = true := by
  rw [clashing, Finset.mem_filter, List.mem_toFinset, mem_qubits_iff]
  cases p.get? c <;> simp

theorem any_clashes_comm (x y : Option Basis) :
    (x.any fun basis => basis.clashes y) = y.any fun basis => basis.clashes x := by
  cases x with
  | none => cases y <;> rfl
  | some B =>
    cases y with
    | none => rfl
    | some C => cases B <;> cases C <;> rfl

theorem clashing_comm (p q : PauliProduct) : p.clashing q = q.clashing p := by
  ext c
  rw [mem_clashing, mem_clashing, any_clashes_comm]

theorem length_clashes (p q : PauliProduct) :
    (p.terms.filter fun term => term.2.clashes (q.get? term.1)).length = (p.clashing q).card := by
  have hnodup : (p.terms.map Prod.fst).Nodup := p.factors.nodup_keys
  have hset : ((p.terms.filter fun term => term.2.clashes (q.get? term.1)).map Prod.fst).toFinset =
      p.clashing q := by
    ext c
    rw [List.mem_toFinset, mem_clashing, List.mem_map]
    constructor
    · rintro ⟨term, hterm, rfl⟩
      obtain ⟨hterm, hclash⟩ := List.mem_filter.1 hterm
      rw [get?_of_mem_terms hterm]
      exact hclash
    · intro h
      obtain ⟨basis, hbasis, hclash⟩ := (Option.any_eq_true _ _).1 h
      have hkey : c ∈ p.qubits := mem_qubits_iff.2 (by simp [hbasis])
      obtain ⟨term, hterm, rfl⟩ := List.mem_map.1 hkey
      obtain rfl : term.2 = basis := by
        rw [get?_of_mem_terms hterm] at hbasis
        exact Option.some.inj hbasis
      exact ⟨term, List.mem_filter.2 ⟨hterm, hclash⟩, rfl⟩
  have hclashes :
      ((p.terms.filter fun term => term.2.clashes (q.get? term.1)).map Prod.fst).Nodup :=
    (List.filter_sublist.map Prod.fst).nodup hnodup
  rw [← hset, List.toFinset_card_of_nodup hclashes, List.length_map]

/-- Products commute when they clash on an even number of qubits. -/
theorem commutes_eq (p q : PauliProduct) : p.commutes q = decide (Even (p.clashing q).card) := by
  have hfilter : p.commutes q =
      ((p.terms.filter fun term => term.2.clashes (q.get? term.1)).length % 2 == 0) := by
    unfold commutes
    dsimp only
    congr 3
    apply List.filter_congr
    intro term _
    cases q.get? term.1 <;> rfl
  rw [hfilter, length_clashes, Bool.eq_iff_iff, beq_iff_eq, decide_eq_true_eq, Nat.even_iff]

theorem commutes_comm (p q : PauliProduct) : p.commutes q = q.commutes p := by
  rw [commutes_eq, commutes_eq, clashing_comm]

theorem commutes_self (p : PauliProduct) : p.commutes p = true := by
  have hnone : p.clashing p = ∅ := by
    ext c
    rw [mem_clashing]
    cases p.get? c with
    | none => simp
    | some B => cases B <;> simp [Basis.clashes, Basis.anticommutes]
  rw [commutes_eq, hnone]
  rfl

/-! ## Multiplying a factor in -/

theorem any_clashes_multiplyFactor (B : Basis) (x y : Option Basis) :
    ((multiplyFactor B x).any fun basis => basis.clashes y) =
      xor (x.any fun basis => basis.clashes y) (B.clashes y) := by
  cases x with
  | none => cases y <;> simp [multiplyFactor]
  | some A =>
    cases y with
    | none => cases A <;> cases B <;> rfl
    | some C => cases A <;> cases B <;> cases C <;> rfl

/-- A factor toggles the clash on its qubit when it clashes there itself. -/
theorem clashing_multiplyTerm (p q : PauliProduct) (a : Coord) (B : Basis) :
    (p.multiplyTerm a B).clashing q =
      if B.clashes (q.get? a) then symmDiff (p.clashing q) {a} else p.clashing q := by
  ext c
  by_cases hsame : a = c
  · subst hsame
    rw [mem_clashing, get?_multiplyTerm, if_pos rfl, any_clashes_multiplyFactor]
    cases hclash : B.clashes (q.get? a) with
    | false => simp [mem_clashing]
    | true => simp [mem_clashing, Finset.mem_symmDiff]
  · rw [mem_clashing, get?_multiplyTerm, if_neg hsame, ← mem_clashing]
    split
    · simp [Finset.mem_symmDiff, Ne.symm hsame]
    · rfl

theorem even_card_symmDiff_singleton (s : Finset Coord) (a : Coord) :
    Even (symmDiff s {a}).card ↔ ¬ Even s.card := by
  by_cases ha : a ∈ s
  · have herase : symmDiff s {a} = s.erase a := by
      ext c
      by_cases hc : c = a <;> simp [Finset.mem_symmDiff, hc, ha]
    rw [herase, ← Finset.card_erase_add_one ha, Nat.even_add_one, not_not]
  · have hinsert : symmDiff s {a} = insert a s := by
      ext c
      by_cases hc : c = a <;> simp [Finset.mem_symmDiff, hc, ha]
    rw [hinsert, Finset.card_insert_of_notMem ha, Nat.even_add_one]

/-- A factor changes whether products commute when it clashes with the other product. -/
theorem commutes_multiplyTerm (p q : PauliProduct) (a : Coord) (B : Basis) :
    (p.multiplyTerm a B).commutes q = xor (p.commutes q) (B.clashes (q.get? a)) := by
  rw [commutes_eq, commutes_eq, clashing_multiplyTerm]
  cases B.clashes (q.get? a) with
  | false => simp
  | true => simp only [if_true, even_card_symmDiff_singleton, decide_not, Bool.xor_true]

/-- Factors on qubits that the other product leaves out count when they are on one qubit and
anticommute. -/
theorem commutes_multiplyTerm_multiplyTerm (ha : a ∉ q.qubits) (hb : b ∉ p.qubits) :
    (p.multiplyTerm a B).commutes (q.multiplyTerm b C) =
      xor (p.commutes q) (decide (a = b) && B.anticommutes C) := by
  have hright : p.commutes (q.multiplyTerm b C) = p.commutes q := by
    rw [commutes_comm, commutes_multiplyTerm, get?_eq_none hb, commutes_comm q]
    exact Bool.xor_false _
  have hclash : B.clashes ((q.multiplyTerm b C).get? a) =
      (decide (a = b) && B.anticommutes C) := by
    rw [get?_multiplyTerm]
    by_cases hsame : a = b
    · subst hsame
      rw [if_pos rfl, get?_eq_none ha]
      simp [multiplyFactor, Basis.clashes]
    · rw [if_neg (Ne.symm hsame), get?_eq_none ha]
      simp [Basis.clashes, hsame]
  rw [commutes_multiplyTerm, hright, hclash]

end PauliProduct

end StabCircuit
