import StabCircuit.Proofs.Noise.Injection

/-!
# Runs of noise injection

Injection takes in the operations of a circuit one after another.  A relation between
what is written and what has been taken in holds at the end if it holds at the start
and is kept by the three things that happen on the way: a moment is written, a step
boundary is written, and a body that was a run of its own is closed and written as a
block.
-/

namespace StabCircuit

namespace NoiseContext

open Circuit

/-- A relation between operations written and operations taken in, both in reverse order, that
writing moments of instructions with a property, step boundaries and blocks keeps. -/
structure Keeps (ctx : NoiseContext) (P : Instruction → Prop)
    (I : List Operation → List Operation → Prop) : Prop where
  start : I [] []
  moment : ∀ {done taken out is}, I done taken → (∀ i ∈ is, P i ∧ i.isTick = false) →
    ctx.moment done is = .ok out → I out ((is.map .instruction).reverse ++ taken)
  tick : ∀ {done taken i}, I done taken → P i → i.isTick = true →
    I (pushReversed done .tick) (.instruction i :: taken)
  block : ∀ {done taken inner body count}, I done taken → I inner body.reverse →
    I (addReversed done (.block count (closeBody inner))) (.block count body :: taken)

/-- The relation holds between what is written and what was taken in before the open moment. -/
structure Holds (P : Instruction → Prop) (I : List Operation → List Operation → Prop)
    (p : Progress) (taken : List Operation) : Prop where
  pending : ∀ i ∈ p.pending, P i ∧ i.isTick = false
  done : ∃ before, taken = p.pending.map .instruction ++ before ∧ I p.done before

variable {ctx : NoiseContext} {P : Instruction → Prop}
  {I : List Operation → List Operation → Prop}

theorem Keeps.holds (hI : ctx.Keeps P I) : Holds P I {} [] where
  pending := by simp
  done := ⟨[], rfl, hI.start⟩

theorem Keeps.flush (hI : ctx.Keeps P I) {p : Progress} {taken out : List Operation}
    (hp : Holds P I p taken) (h : ctx.flush p = .ok out) : I out taken := by
  obtain ⟨before, rfl, hdone⟩ := hp.done
  have hpending : ∀ i ∈ p.pending.reverse, P i ∧ i.isTick = false :=
    fun i hi => hp.pending i (List.mem_reverse.1 hi)
  have hmoment := hI.moment hdone hpending h
  rwa [List.map_reverse, List.reverse_reverse] at hmoment

/-- At the end of a moment nothing is pending. -/
theorem holds_of_done {done taken : List Operation} (h : I done taken) :
    Holds P I { done } taken where
  pending := by simp
  done := ⟨taken, rfl, h⟩

mutual

theorem Keeps.stepOperation (hI : ctx.Keeps P I) :
    (op : Operation) → Within P op → {p out : Progress} → {taken : List Operation} →
      Holds P I p taken → NoiseContext.stepOperation ctx p op = .ok out →
      Holds P I out (op :: taken)
  | .instruction i, hop, p, out, taken, hp, h => by
    rw [within_instruction] at hop
    rw [NoiseContext.stepOperation] at h
    split at h
    · next htick =>
      obtain ⟨done, hdone, rfl⟩ := map_eq_ok.1 h
      exact holds_of_done (hI.tick (hI.flush hp hdone) hop htick)
    · next htick =>
      cases h
      obtain ⟨before, rfl, hbefore⟩ := hp.done
      exact ⟨List.forall_mem_cons.2 ⟨⟨hop, by simpa using htick⟩, hp.pending⟩, before, rfl, hbefore⟩
  | .block count body, hop, p, out, taken, hp, h => by
    rw [within_block] at hop
    rw [NoiseContext.stepOperation] at h
    obtain ⟨done, hdone, h⟩ := bind_eq_ok.1 h
    obtain ⟨progress, hprogress, h⟩ := bind_eq_ok.1 h
    obtain ⟨inner, hinner, h⟩ := bind_eq_ok.1 h
    cases h
    have hrun := Keeps.stepAll hI body hop hI.holds hprogress
    rw [List.append_nil] at hrun
    exact holds_of_done (hI.block (hI.flush hp hdone) (hI.flush hrun hinner))

theorem Keeps.stepAll (hI : ctx.Keeps P I) :
    (ops : List Operation) → Everywhere P ops → {p out : Progress} → {taken : List Operation} →
      Holds P I p taken → NoiseContext.stepAll ctx p ops = .ok out →
      Holds P I out (ops.reverse ++ taken)
  | [], _, p, out, taken, hp, h => by
    cases h
    exact hp
  | op :: rest, hops, p, out, taken, hp, h => by
    rw [everywhere_cons] at hops
    obtain ⟨mid, hmid, hrest⟩ := bind_eq_ok.1 h
    have hstep := Keeps.stepOperation hI op hops.1 hp hmid
    rw [List.reverse_cons, List.append_assoc, List.singleton_append]
    exact Keeps.stepAll hI rest hops.2 hstep hrest

end

/-- A relation that every step keeps holds between the result and the circuit. -/
theorem Keeps.inject (hI : ctx.Keeps P I) {c out : Circuit} (hc : Everywhere P c)
    (h : ctx.inject c = .ok out) : I out.reverse c.reverse := by
  obtain ⟨p, hp, h⟩ := bind_eq_ok.1 h
  obtain ⟨done, hdone, h⟩ := bind_eq_ok.1 h
  cases h
  have hrun := hI.stepAll c hc hI.holds hp
  rw [List.append_nil] at hrun
  rw [List.reverse_reverse]
  exact hI.flush hrun hdone

end NoiseContext

end StabCircuit
