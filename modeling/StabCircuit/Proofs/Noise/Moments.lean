import Mathlib.Data.List.Forall2
import StabCircuit.Proofs.Noise.Erasure

/-!
# Noise injection moment by moment

The moments of a circuit are the spans of instructions between step boundaries and
the borders of repeat blocks.  Injection writes one moment after another: the moments
of a circuit with noise are what is written for the moments of the circuit, in order
and with neighbours merged, except that a moment for which nothing is written is no
moment of the result.
-/

namespace StabCircuit

namespace Circuit

/-! ## Moments -/

mutual

/-- The instructions of an operation, with `none` wherever a moment ends. -/
def markedOperation : Operation → List (Option Instruction)
  | .instruction i => if i.isTick then [none] else [some i]
  | .block _ body => none :: (marked body ++ [none])

/-- The instructions of a circuit, with `none` wherever a moment ends. -/
def marked : List Operation → List (Option Instruction)
  | [] => []
  | op :: rest => markedOperation op ++ marked rest

end

/-- The instructions between the ends of moments, also where there are none. -/
def spans : List (Option Instruction) → List (List Instruction)
  | [] => [[]]
  | none :: rest => [] :: spans rest
  | some i :: rest => (spans rest).modifyHead (i :: ·)

/-- The spans that have an instruction. -/
def full (spans : List (List Instruction)) : List (List Instruction) :=
  spans.filter fun span => !span.isEmpty

/-- The moments of a circuit: the maximal spans of instructions between step boundaries and the
borders of repeat blocks. -/
def moments (c : Circuit) : List (List Instruction) := full (spans (marked c))

theorem marked_append (c d : List Operation) : marked (c ++ d) = marked c ++ marked d := by
  induction c with
  | nil => rfl
  | cons op rest ih => rw [List.cons_append, marked, ih, marked, List.append_assoc]

theorem marked_reverse_cons (op : Operation) (done : List Operation) :
    marked (op :: done).reverse = marked done.reverse ++ markedOperation op := by
  rw [List.reverse_cons, marked_append]
  simp [marked]

theorem spans_ne_nil (ms : List (Option Instruction)) : spans ms ≠ [] := by
  induction ms with
  | nil => simp [spans]
  | cons m ms ih =>
    cases m with
    | none => simp [spans]
    | some i => simpa [spans] using ih

theorem spans_append_none (as bs : List (Option Instruction)) :
    spans (as ++ none :: bs) = spans as ++ spans bs := by
  induction as with
  | nil => rfl
  | cons a as ih =>
    cases a with
    | none => rw [List.cons_append, spans, ih, spans, List.cons_append]
    | some i =>
      obtain ⟨first, rest, hspans⟩ := List.exists_cons_of_ne_nil (spans_ne_nil as)
      rw [List.cons_append, spans, ih, spans, hspans]
      rfl

theorem spans_map_some (is : List Instruction) : spans (is.map some) = [is] := by
  induction is with
  | nil => rfl
  | cons i is ih => rw [List.map_cons, spans, ih, List.modifyHead_cons]

theorem full_append (xs ys : List (List Instruction)) : full (xs ++ ys) = full xs ++ full ys :=
  List.filter_append xs ys

/-! ## Writing after a boundary -/

/-- Nothing is written since the last moment ended; operations are in reverse order. -/
def IsAtBoundary (done : List Operation) : Prop :=
  ∀ last rest, done = .instruction last :: rest → last.isTick = true

/-- Nothing merges into a step boundary. -/
theorem fuses_of_isTick {last : Instruction} (h : last.isTick = true) (next : Instruction) :
    fuses last next = false := by
  rw [Bool.eq_false_iff]
  intro hfuses
  have hname : next.name = Gate.name .tick := by
    rw [← name_eq_of_fuses hfuses]
    simpa [Instruction.isTick] using h
  simp [fuses, Instruction.gate?_of_name hname, Gate.isFusable, Gate.kind] at hfuses

theorem pushReversed_append {done : List Operation} (hdone : IsAtBoundary done) (i : Instruction)
    (written : List Operation) :
    pushReversed (written ++ done) i = pushReversed written i ++ done := by
  cases written with
  | nil => exact pushReversed_of_not_fuses fun last rest hlast => fuses_of_isTick (hdone _ _ hlast) i
  | cons op written =>
    cases op with
    | block count body => rfl
    | instruction last =>
      simp only [List.cons_append, pushReversed]
      split <;> rfl

theorem foldl_pushReversed_append {done : List Operation} (hdone : IsAtBoundary done)
    (js : List Instruction) (written : List Operation) :
    js.foldl pushReversed (written ++ done) = js.foldl pushReversed written ++ done := by
  induction js generalizing written with
  | nil => rfl
  | cons j js ih =>
    rw [List.foldl_cons, pushReversed_append hdone, ih, List.foldl_cons]

/-- Instructions appended one after another leave instructions, some of them merged. -/
def Merges (js ks : List Instruction) : Prop :=
  js.foldl pushReversed [] = (ks.map Operation.instruction).reverse

theorem exists_pushReversed {ks : List Instruction} (hks : ∀ k ∈ ks, k.isTick = false)
    {i : Instruction} (hi : i.isTick = false) :
    ∃ ks' : List Instruction, (∀ k ∈ ks', k.isTick = false) ∧
      pushReversed (ks.map .instruction) i = ks'.map .instruction := by
  cases ks with
  | nil => exact ⟨[i], by simpa using hi, rfl⟩
  | cons last rest =>
    rw [List.map_cons, pushReversed]
    split
    · rw [List.forall_mem_cons] at hks
      exact ⟨last.join i :: rest, List.forall_mem_cons.2 hks, rfl⟩
    · exact ⟨i :: last :: rest, List.forall_mem_cons.2 ⟨hi, hks⟩, rfl⟩

theorem exists_foldl_pushReversed {js : List Instruction} (hjs : ∀ j ∈ js, j.isTick = false)
    {ks : List Instruction} (hks : ∀ k ∈ ks, k.isTick = false) :
    ∃ ks' : List Instruction, (∀ k ∈ ks', k.isTick = false) ∧
      js.foldl pushReversed (ks.map .instruction) = ks'.map .instruction := by
  induction js generalizing ks with
  | nil => exact ⟨ks, hks, rfl⟩
  | cons j js ih =>
    rw [List.forall_mem_cons] at hjs
    obtain ⟨next, hnext, hpush⟩ := exists_pushReversed hks hjs.1
    rw [List.foldl_cons, hpush]
    exact ih hjs.2 hnext

theorem exists_merges {js : List Instruction} (hjs : ∀ j ∈ js, j.isTick = false) :
    ∃ ks, Merges js ks ∧ ∀ k ∈ ks, k.isTick = false := by
  obtain ⟨ks, hks, hfold⟩ := exists_foldl_pushReversed hjs (List.forall_mem_nil _)
  refine ⟨ks.reverse, ?_, by simpa using hks⟩
  rw [Merges, ← List.map_reverse, List.reverse_reverse]
  exact hfold

theorem marked_map_instruction {ks : List Instruction} (hks : ∀ k ∈ ks, k.isTick = false) :
    marked (ks.map .instruction) = ks.map some := by
  induction ks with
  | nil => rfl
  | cons k ks ih =>
    rw [List.forall_mem_cons] at hks
    simp [marked, markedOperation, hks.1, ih hks.2]

/-- What is written after a boundary makes up one span. -/
theorem marked_foldl_pushReversed {done : List Operation} (hdone : IsAtBoundary done)
    {js ks : List Instruction} (hks : ∀ k ∈ ks, k.isTick = false) (h : Merges js ks) :
    marked (js.foldl pushReversed done).reverse = marked done.reverse ++ ks.map some := by
  rw [← List.nil_append done, foldl_pushReversed_append hdone, h, List.nil_append,
    List.reverse_append, List.reverse_reverse, marked_append, marked_map_instruction hks]

/-! ## Matching moments -/

/-- Spans are written for spans, one for each that has an instruction, and those that have an
instruction of their own are there in order. -/
def Matched (R : List Instruction → List Instruction → Prop)
    (ms os : List (List Instruction)) : Prop :=
  ∃ outs, List.Forall₂ R (full ms) outs ∧ full os = full outs

variable {R : List Instruction → List Instruction → Prop}

theorem matched_nil : Matched R [] [] := ⟨[], .nil, rfl⟩

theorem matched_empty : Matched R [[]] [[]] := ⟨[], .nil, rfl⟩

theorem matched_singleton {is ks : List Instruction} (hne : is ≠ []) (h : R is ks) :
    Matched R [is] [ks] := by
  refine ⟨[ks], ?_, rfl⟩
  have hfull : full [is] = [is] := by simp [full, hne]
  rw [hfull]
  exact .cons h .nil

theorem Matched.append {ms os ms' os' : List (List Instruction)} (h : Matched R ms os)
    (h' : Matched R ms' os') : Matched R (ms ++ ms') (os ++ os') := by
  obtain ⟨outs, houts, hfull⟩ := h
  obtain ⟨outs', houts', hfull'⟩ := h'
  refine ⟨outs ++ outs', ?_, ?_⟩
  · rw [full_append]
    exact List.rel_append houts houts'
  · rw [full_append, full_append, hfull, hfull']

/-- Spans without an instruction do not matter. -/
theorem Matched.append_empty {ms os : List (List Instruction)} (h : Matched R ms os) :
    Matched R ms (os ++ [[]]) := by
  obtain ⟨outs, houts, hfull⟩ := h
  refine ⟨outs, houts, ?_⟩
  rw [full_append, hfull]
  simp [full]

end Circuit

/-! ## The run -/

namespace NoiseContext

open Circuit

/-- Moments of instructions with a property are written as instructions in a relation to them. -/
def WritesMoments (ctx : NoiseContext) (P : Instruction → Prop)
    (R : List Instruction → List Instruction → Prop) : Prop :=
  ∀ is done out, (∀ i ∈ is, P i ∧ i.isTick = false) → ctx.moment done is = .ok out →
    ∃ js, (∀ j ∈ js, j.isTick = false) ∧ out = js.foldl pushReversed done ∧
      ∀ ks, Merges js ks → R is ks

/-- The progress has taken in marks: the spans before the last are matched by what is written,
and the last is pending. -/
structure Momentwise (P : Instruction → Prop) (R : List Instruction → List Instruction → Prop)
    (p : Progress) (taken : List (Option Instruction)) : Prop where
  boundary : IsAtBoundary p.done
  pending : ∀ i ∈ p.pending, P i ∧ i.isTick = false
  matched : ∃ ms os, Matched R ms os ∧
    (∀ more, spans (taken ++ more.map some) = ms ++ [p.pending.reverse ++ more]) ∧
    ∀ more, spans (marked p.done.reverse ++ more.map some) = os ++ [more]

variable {ctx : NoiseContext} {P : Instruction → Prop}
  {R : List Instruction → List Instruction → Prop}

theorem momentwise_empty : Momentwise P R {} [] where
  boundary := by
    intro last rest h
    cases h
  pending := by simp
  matched := ⟨[], [], matched_nil, spans_map_some, spans_map_some⟩

theorem Momentwise.flush (hmoments : ctx.WritesMoments P R) {p : Progress}
    {taken : List (Option Instruction)} (hp : Momentwise P R p taken) {out : List Operation}
    (h : ctx.flush p = .ok out) :
    Matched R (spans taken) (spans (marked out.reverse)) := by
  obtain ⟨ms, os, hmatched, htaken, hdone⟩ := hp.matched
  have hspans := htaken []
  rw [List.map_nil, List.append_nil, List.append_nil] at hspans
  rw [hspans]
  by_cases hempty : p.pending = []
  · obtain rfl : p.done = out := by
      rw [NoiseContext.flush, hempty, List.reverse_nil, moment_nil] at h
      exact Except.ok.inj h
    have hwritten := hdone []
    rw [List.map_nil, List.append_nil] at hwritten
    rw [hwritten, hempty]
    exact hmatched.append matched_empty
  · have hpending : ∀ i ∈ p.pending.reverse, P i ∧ i.isTick = false :=
      fun i hi => hp.pending i (List.mem_reverse.1 hi)
    obtain ⟨js, hjs, rfl, hR⟩ := hmoments _ _ _ hpending h
    obtain ⟨ks, hmerges, hks⟩ := exists_merges hjs
    rw [marked_foldl_pushReversed hp.boundary hks hmerges, hdone]
    exact hmatched.append (matched_singleton (by simpa using hempty) (hR ks hmerges))

theorem Momentwise.tick {out : List Operation} {taken : List (Option Instruction)}
    (h : Matched R (spans taken) (spans (marked out.reverse))) :
    Momentwise P R { done := pushReversed out .tick } (taken ++ [none]) := by
  have hpush : pushReversed out .tick = .instruction .tick :: out :=
    pushReversed_of_not_fuses fun last _ _ => fuses_tick last
  refine ⟨?_, by simp, _, _, h, fun more => ?_, fun more => ?_⟩
  · intro last rest hlast
    rw [hpush] at hlast
    cases hlast
    rfl
  · rw [List.append_assoc, List.singleton_append, spans_append_none, spans_map_some]
    rfl
  · have hmark : markedOperation (.instruction .tick) = [none] := rfl
    rw [hpush, marked_reverse_cons, hmark, List.append_assoc, List.singleton_append,
      spans_append_none, spans_map_some]

theorem matched_closeBody {inner : List Operation} {taken : List (Option Instruction)}
    (h : Matched R (spans taken) (spans (marked inner.reverse))) :
    Matched R (spans taken) (spans (marked (closeBody inner))) := by
  unfold closeBody
  dsimp only
  split
  · exact h
  · have hmark : marked [.instruction .tick] = [none] := rfl
    rw [tick_eq_append, marked_append, hmark, spans_append_none]
    exact h.append_empty

theorem Momentwise.block {out body : List Operation} {taken inner : List (Option Instruction)}
    (h : Matched R (spans taken) (spans (marked out.reverse)))
    (hbody : Matched R (spans inner) (spans (marked body))) (count : Nat) :
    Momentwise P R { done := .block count body :: out } (taken ++ none :: (inner ++ [none])) := by
  refine ⟨?_, by simp, _, _, h.append hbody, fun more => ?_, fun more => ?_⟩
  · intro last rest hlast
    cases hlast
  · rw [List.append_assoc, List.cons_append, spans_append_none, List.append_assoc,
      List.singleton_append, spans_append_none, spans_map_some, List.append_assoc]
    rfl
  · rw [marked_reverse_cons, markedOperation, List.append_assoc, List.cons_append,
      spans_append_none, List.append_assoc, List.singleton_append, spans_append_none,
      spans_map_some, List.append_assoc]

mutual

theorem Momentwise.stepOperation (hmoments : ctx.WritesMoments P R) :
    (op : Operation) → Within P op → SettledOperation op → {p out : Progress} →
      {taken : List (Option Instruction)} → Momentwise P R p taken →
      NoiseContext.stepOperation ctx p op = .ok out →
      Momentwise P R out (taken ++ markedOperation op)
  | .instruction i, hop, _, p, out, taken, hp, h => by
    rw [within_instruction] at hop
    rw [NoiseContext.stepOperation] at h
    rw [markedOperation]
    split at h
    · next htick =>
      obtain ⟨done, hdone, rfl⟩ := map_eq_ok.1 h
      rw [if_pos htick]
      exact .tick (hp.flush hmoments hdone)
    · next htick =>
      cases h
      rw [if_neg htick]
      obtain ⟨ms, os, hmatched, htaken, hdone⟩ := hp.matched
      refine ⟨hp.boundary, ?_, ms, os, hmatched, fun more => ?_, hdone⟩
      · exact List.forall_mem_cons.2 ⟨⟨hop, by simpa using htick⟩, hp.pending⟩
      · rw [List.append_assoc, List.reverse_cons, List.append_assoc]
        exact htaken (i :: more)
  | .block count body, hop, hsettled, p, out, taken, hp, h => by
    rw [within_block] at hop
    rw [SettledOperation] at hsettled
    rw [NoiseContext.stepOperation] at h
    obtain ⟨done, hdone, h⟩ := bind_eq_ok.1 h
    obtain ⟨progress, hprogress, h⟩ := bind_eq_ok.1 h
    obtain ⟨inner, hinner, h⟩ := bind_eq_ok.1 h
    cases h
    -- The body is a run of its own, and a block that runs at least twice is kept as it is.
    have hrun := Momentwise.stepAll hmoments body hop hsettled.2 momentwise_empty hprogress
    rw [markedOperation, addReversed_block hsettled.1]
    exact .block (hp.flush hmoments hdone) (matched_closeBody (hrun.flush hmoments hinner)) count

theorem Momentwise.stepAll (hmoments : ctx.WritesMoments P R) :
    (c : List Operation) → Everywhere P c → Settled c → {p out : Progress} →
      {taken : List (Option Instruction)} → Momentwise P R p taken →
      NoiseContext.stepAll ctx p c = .ok out → Momentwise P R out (taken ++ marked c)
  | [], _, _, p, out, taken, hp, h => by
    cases h
    rw [marked, List.append_nil]
    exact hp
  | op :: rest, hc, hsettled, p, out, taken, hp, h => by
    rw [everywhere_cons] at hc
    rw [Settled] at hsettled
    obtain ⟨mid, hmid, hrest⟩ := bind_eq_ok.1 h
    have hstep := Momentwise.stepOperation hmoments op hc.1 hsettled.1 hp hmid
    rw [marked, ← List.append_assoc]
    exact Momentwise.stepAll hmoments rest hc.2 hsettled.2.2 hstep hrest

end

/-- The moments of the result are what is written for the moments of the circuit, in order. -/
theorem moments_inject (hmoments : ctx.WritesMoments P R) {c out : Circuit}
    (hc : Everywhere P c) (hsettled : Settled c) (h : ctx.inject c = .ok out) :
    ∃ outs, List.Forall₂ R (moments c) outs ∧ moments out = full outs := by
  obtain ⟨p, hp, h⟩ := bind_eq_ok.1 h
  obtain ⟨done, hdone, h⟩ := bind_eq_ok.1 h
  cases h
  exact (Momentwise.stepAll hmoments c hc hsettled momentwise_empty hp).flush hmoments hdone

end NoiseContext

end StabCircuit
