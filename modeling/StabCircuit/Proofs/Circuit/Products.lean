import Mathlib.Data.List.Chain
import StabCircuit.Proofs.Circuit.Pieces
import StabCircuit.Proofs.Circuit.Settled

/-!
# Products of a target list

A target list is read as a list of products and products are written as a target
list.  Reading undoes writing on products that have factors, and writing undoes
reading exactly where combiners stand between factors only.  Two lists that meet
without a combiner are read one after the other, so that product measurements
which merge keep their products.
-/

namespace StabCircuit

namespace Target

/-! ## Products that were read -/

/-- No two combiners stand side by side. -/
def NoDoubledCombiner (ts : List Target) : Prop :=
  ts.IsChain fun s t => s.isCombiner = false ∨ t.isCombiner = false

instance : DecidablePred NoDoubledCombiner := fun ts =>
  inferInstanceAs (Decidable (ts.IsChain _))

theorem joinProduct_append_singleton {group : List Target} (hne : group ≠ []) (t : Target) :
    joinProduct (group ++ [t]) = joinProduct group ++ [combiner, t] := by
  obtain ⟨a, rest, rfl⟩ := List.exists_cons_of_ne_nil hne
  rw [List.cons_append, joinProduct_cons, joinProduct_cons]
  simp

/-- Products are written as they were read; `joining` tells whether a combiner stood last. -/
theorem joinProducts_extendProduct {group ts : List Target} {joining : Bool} (hne : group ≠ [])
    (hlast : ts.getLast?.any isCombiner = false) (hend : ts = [] → joining = false)
    (hchain : NoDoubledCombiner ((if joining then [combiner] else []) ++ ts)) :
    joinProducts (extendProduct group joining ts) =
      joinProduct group ++ (if joining then [combiner] else []) ++ ts := by
  induction ts generalizing group joining with
  | nil =>
    obtain rfl := hend rfl
    simp [extendProduct, joinProducts]
  | cons t rest ih =>
    have hlast' : rest.getLast?.any isCombiner = false := by
      cases rest with
      | nil => rfl
      | cons b more => simpa using hlast
    have hrest : NoDoubledCombiner (t :: rest) := by
      cases joining with
      | false => exact hchain
      | true => exact hchain.tail
    by_cases ht : t.isCombiner = true
    · -- A combiner opens the join; the chain excludes that one stood here already.
      obtain rfl := eq_combiner ht
      have hjoining : joining = false := by
        cases joining with
        | false => rfl
        | true =>
          have := (List.isChain_cons_cons.1 hchain).1
          simp [isCombiner] at this
      subst hjoining
      have hne' : rest = [] → true = false := by
        rintro rfl
        simp [isCombiner] at hlast
      rw [extendProduct, if_pos ht, ih hne hlast' hne' hrest]
      simp
    · have ht' : t.isCombiner = false := by simpa using ht
      rw [extendProduct, if_neg ht]
      cases joining with
      | true =>
        rw [if_pos rfl, ih (by simp) hlast' (fun _ => rfl) hrest.tail,
          joinProduct_append_singleton hne]
        simp
      | false =>
        have hstep := @ih [t] false (by simp) hlast' (fun _ => rfl) hrest.tail
        rw [joinProducts] at hstep
        rw [if_neg (by simp), joinProducts, List.flatMap_cons, hstep]
        simp [joinProduct]

/-- Products are written as they were read, where combiners stand between factors only. -/
theorem joinProducts_productGroups {ts : List Target} (hhead : ts.head?.any isCombiner = false)
    (hlast : ts.getLast?.any isCombiner = false) (hchain : NoDoubledCombiner ts) :
    joinProducts (productGroups ts) = ts := by
  cases ts with
  | nil => rfl
  | cons t rest =>
    have ht : t.isCombiner = false := by simpa using hhead
    have hlast' : rest.getLast?.any isCombiner = false := by
      cases rest with
      | nil => rfl
      | cons b more => simpa using hlast
    rw [productGroups, if_neg (by simp [ht]),
      joinProducts_extendProduct (by simp) hlast' (fun _ => rfl) hchain.tail]
    simp [joinProduct]

/-! ## Products that were written -/

/-- Every combiner of the list stands between two factors. -/
structure IsJoined (ts : List Target) : Prop where
  first : ts.head?.any isCombiner = false
  last : ts.getLast?.any isCombiner = false
  single : NoDoubledCombiner ts

instance : DecidablePred IsJoined := fun ts =>
  decidable_of_iff
    (ts.head?.any isCombiner = false ∧ ts.getLast?.any isCombiner = false ∧ NoDoubledCombiner ts)
    ⟨fun h => ⟨h.1, h.2.1, h.2.2⟩, fun h => ⟨h.1, h.2, h.3⟩⟩

theorem isJoined_nil : IsJoined [] := by decide

theorem IsJoined.append {s t : List Target} (hs : IsJoined s) (ht : IsJoined t) :
    IsJoined (s ++ t) where
  first := by
    cases s with
    | nil => exact ht.first
    | cons a s => exact hs.first
  last := by
    rw [List.getLast?_append]
    cases hlast : t.getLast? with
    | none => exact hs.last
    | some a => simpa [hlast] using ht.last
  single := by
    refine List.isChain_append.2 ⟨hs.single, ht.single, fun a ha b _ => .inl ?_⟩
    have hlast := hs.last
    rw [Option.mem_def.1 ha] at hlast
    exact hlast

/-- A product is written with its combiners between factors. -/
theorem isJoined_joinProduct {group : List Target} (h : ∀ t ∈ group, t.isCombiner = false) :
    IsJoined (joinProduct group) := by
  cases group with
  | nil => exact isJoined_nil
  | cons a rest =>
    rw [List.forall_mem_cons] at h
    refine ⟨?_, ?_, ?_⟩
    · rw [joinProduct_cons]
      exact h.1
    · rw [getLast?_joinProduct, Option.any_eq_false]
      intro t ht
      rcases List.mem_cons.1 (List.mem_of_getLast? ht) with rfl | ht
      · simp [h.1]
      · simp [h.2 t ht]
    · rw [joinProduct_cons]
      -- after each factor there comes a combiner and the next factor
      obtain ⟨ha, hrest⟩ := h
      induction rest generalizing a with
      | nil => exact List.isChain_singleton a
      | cons b rest ih =>
        rw [List.forall_mem_cons] at hrest
        rw [List.flatMap_cons]
        refine List.isChain_cons_cons.2 ⟨.inl ha, ?_⟩
        exact List.isChain_cons_cons.2 ⟨.inr hrest.1, ih b hrest.1 hrest.2⟩

theorem joinProducts_cons (group : List Target) (groups : List (List Target)) :
    joinProducts (group :: groups) = joinProduct group ++ joinProducts groups :=
  List.flatMap_cons

/-- Products are written with combiners between factors only. -/
theorem isJoined_joinProducts {groups : List (List Target)}
    (h : ∀ group ∈ groups, ∀ t ∈ group, t.isCombiner = false) : IsJoined (joinProducts groups) := by
  induction groups with
  | nil => exact isJoined_nil
  | cons group groups ih =>
    rw [List.forall_mem_cons] at h
    rw [joinProducts_cons]
    exact (isJoined_joinProduct h.1).append (ih h.2)

/-- Written products are read as they were. -/
theorem productGroups_joinProducts {groups : List (List Target)}
    (h : ∀ group ∈ groups, group ≠ [] ∧ ∀ t ∈ group, t.isCombiner = false) :
    productGroups (joinProducts groups) = groups := by
  induction groups with
  | nil => rfl
  | cons group groups ih =>
    rw [List.forall_mem_cons] at h
    obtain ⟨⟨hne, hfactors⟩, hgroups⟩ := h
    have hrest := isJoined_joinProducts fun g hg => (hgroups g hg).2
    rw [joinProducts_cons, productGroups_append (isJoined_joinProduct hfactors).last hrest.first,
      productGroups_joinProduct hne hfactors, ih hgroups]
    rfl

/-- A target list is written as it was read exactly where combiners stand between factors only. -/
theorem joinProducts_productGroups_iff {ts : List Target} :
    joinProducts (productGroups ts) = ts ↔ IsJoined ts := by
  constructor
  · intro h
    rw [← h]
    exact isJoined_joinProducts fun group hgroup t ht => ((mem_productGroups hgroup).2 t ht).2
  · intro h
    exact joinProducts_productGroups h.first h.last h.single

end Target

/-! ## Products of instructions that merge -/

namespace Circuit

/-- Product instructions that merge keep their products, those of the first before those of the
second. -/
theorem productGroups_push {c : Circuit} {last next : Instruction} (hlast : last.IsChecked)
    (hnext : next.IsChecked) (hkind : last.kind.isProduct = true)
    (h : fuses last next = true) :
    ∃ merged : Instruction,
      Circuit.push (c ++ [.instruction last]) next = c ++ [.instruction merged] ∧
      Target.productGroups merged.targets =
        Target.productGroups last.targets ++ Target.productGroups next.targets := by
  refine ⟨last.join next, ?_, ?_⟩
  · rw [push, List.reverse_append, List.reverse_singleton, List.singleton_append,
      pushReversed_of_fuses h, List.reverse_cons, List.reverse_reverse]
  · have hkind' : next.kind.isProduct = true := by rwa [← kind_eq_of_fuses h]
    have hgroups := Instruction.targetGroups_join hlast hnext h
    rwa [Instruction.targetGroups_of_isProduct hkind, Instruction.targetGroups_of_isProduct hkind',
      Instruction.targetGroups_of_isProduct ((Instruction.kind_join last next).symm ▸ hkind)]
      at hgroups

end Circuit

/-- Reading products and writing them undo each other, and product instructions that merge keep
their products: products with factors are read as they were written; a target list is written as
it was read exactly where it does not begin or end with a combiner and has no two side by side;
and lists that meet without a combiner are read one after the other. -/
theorem Target.products_inverse :
    (∀ groups : List (List Target),
      (∀ group ∈ groups, group ≠ [] ∧ ∀ t ∈ group, t.isCombiner = false) →
        productGroups (joinProducts groups) = groups) ∧
    (∀ ts : List Target, joinProducts (productGroups ts) = ts ↔
      ts.head?.any isCombiner = false ∧ ts.getLast?.any isCombiner = false ∧
        NoDoubledCombiner ts) ∧
    (∀ s t : List Target, s.getLast?.any isCombiner = false → t.head?.any isCombiner = false →
      productGroups (s ++ t) = productGroups s ++ productGroups t) ∧
    ∀ (c : Circuit) (last next : Instruction), last.IsChecked → next.IsChecked →
      last.kind.isProduct = true → Circuit.fuses last next = true →
        ∃ merged : Instruction,
          Circuit.push (c ++ [.instruction last]) next = c ++ [.instruction merged] ∧
          productGroups merged.targets =
            productGroups last.targets ++ productGroups next.targets := by
  refine ⟨fun groups h => productGroups_joinProducts h, fun ts => ?_, fun s t hs ht => ?_, ?_⟩
  · rw [joinProducts_productGroups_iff]
    exact ⟨fun h => ⟨h.first, h.last, h.single⟩, fun h => ⟨h.1, h.2.1, h.2.2⟩⟩
  · exact productGroups_append hs ht
  · intro c last next hlast hnext hkind h
    exact Circuit.productGroups_push hlast hnext hkind h

/-- A product of two factors before a factor that stands alone. -/
def crossTerms : Instruction :=
  ⟨Gate.measureProduct.name, [.pauli .x 0, .combiner, .pauli .z 1, .pauli .y 2], [1 / 10]⟩

/-- A product of three factors. -/
def longTerm : Instruction :=
  ⟨Gate.measureProduct.name,
    [.pauli .z 0, .combiner, .pauli .z 3, .combiner, .pauli .x 2], [1 / 10]⟩

theorem Target.products_inverse_crossTerms :
    productGroups (joinProducts [[.pauli .x 0, .pauli .z 1], [.pauli .y 2]]) =
        [[.pauli .x 0, .pauli .z 1], [.pauli .y 2]] ∧
      joinProducts (productGroups crossTerms.targets) = crossTerms.targets ∧
      productGroups (crossTerms.targets ++ longTerm.targets) =
        productGroups crossTerms.targets ++ productGroups longTerm.targets ∧
      crossTerms.IsChecked ∧ longTerm.IsChecked ∧ crossTerms.kind.isProduct = true ∧
      Circuit.fuses crossTerms longTerm = true ∧
      ∃ merged : Instruction,
        Circuit.push ([] ++ [.instruction crossTerms]) longTerm = [] ++ [.instruction merged] ∧
        productGroups merged.targets =
          productGroups crossTerms.targets ++ productGroups longTerm.targets := by
  obtain ⟨hread, hwritten, happend, hmerge⟩ := products_inverse
  have hcross : crossTerms.IsChecked := by decide +kernel
  have hlong : longTerm.IsChecked := by decide +kernel
  have hkind : crossTerms.kind.isProduct = true := by decide +kernel
  have hfuses : Circuit.fuses crossTerms longTerm = true := by decide +kernel
  exact ⟨hread _ (by decide), (hwritten _).2 (by decide), happend _ _ (by decide) (by decide),
    hcross, hlong, hkind, hfuses, hmerge _ _ _ hcross hlong hkind hfuses⟩

end StabCircuit
