import StabCircuit.Instruction

/-!
# Names of gates

Every gate has a canonical name that is looked up as that very gate, so names
and gates determine each other.  Everything that is written by gate and read
back by name goes through `Gate.ofName?_name`.
-/

namespace StabCircuit

theorem Rotation.mem_all (r : Rotation) : r ∈ Rotation.all := by
  obtain ⟨⟨bx, nx⟩, ⟨bz, nz⟩, h⟩ := r
  revert h
  cases bx <;> cases bz <;> cases nx <;> cases nz <;> decide

namespace Gate

theorem mem_all (g : Gate) : g ∈ Gate.all := by
  cases g with
  | rotate r =>
    have h : rotate r ∈ Rotation.all.map rotate := List.mem_map.2 ⟨r, r.mem_all, rfl⟩
    simp only [Gate.all, List.mem_append, h, true_or, or_true]
  | controlled a b => cases a <;> cases b <;> decide +kernel
  | rootPair b inverse => cases b <;> cases inverse <;> decide +kernel
  | reset b => cases b <;> decide +kernel
  | measure b => cases b <;> decide +kernel
  | measureReset b => cases b <;> decide +kernel
  | pauliError b => cases b <;> decide +kernel
  | _ => decide +kernel

/-- The canonical name of a gate is looked up as that gate. -/
@[simp] theorem ofName?_name (g : Gate) : ofName? g.name = some g := by
  have h : ∀ g ∈ Gate.all, ofName? g.name = some g := by decide +kernel
  exact h g g.mem_all

@[simp] theorem lookup_name (g : Gate) : lookup g.name = .ok g := by
  simp [lookup]

theorem name_injective {g h : Gate} (hname : g.name = h.name) : g = h := by
  have hsome : some g = some h := by
    rw [← ofName?_name g, ← ofName?_name h, hname]
  exact Option.some.inj hsome

theorem ofName?_of_lookup {text : String} {g : Gate} (h : lookup text = .ok g) :
    ofName? text = some g := by
  unfold lookup at h
  split at h
  · next found hfound =>
    cases h
    exact hfound
  · cases h

end Gate

end StabCircuit
