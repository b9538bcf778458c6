import StabCircuit.Circuit.Parser
import StabCircuit.Proofs.Circuit.Unrolled
import StabCircuit.Proofs.Support.Results
import StabCircuit.Proofs.Text.Splitting

/-!
# Circuits read from text

The reader makes every instruction of a line and appends it to the innermost open
block; a closing brace appends the block to the one around it.  A circuit that is
read is therefore built by appending, whatever the text.
-/

namespace StabCircuit

namespace Circuit

theorem atLine_eq_ok {α : Type} {number : Nat} {x : Except CircuitError α} {a : α} :
    atLine number x = .ok a ↔ x = .ok a := by
  cases x <;> simp [atLine]

/-- An instruction that is read has targets that are read, and is made. -/
theorem make_of_readInstruction {number : Nat} {line : List Char} {i : Instruction}
    (h : readInstruction number line = .ok i) :
    ∃ name targets args, Instruction.make name targets args = .ok i ∧
      readHead number (splitHead line).1 = .ok (name.toList, args) ∧
      readTargets number (splitHead line).2 = .ok targets := by
  unfold readInstruction at h
  obtain ⟨⟨name, args⟩, hhead, h⟩ := bind_eq_ok.1 h
  obtain ⟨targets, htargets, h⟩ := bind_eq_ok.1 h
  refine ⟨String.ofList name, targets, args, atLine_eq_ok.1 h, ?_, htargets⟩
  rw [String.toList_ofList]
  exact hhead

/-- Circuits put together from lines: instructions that are read, and bodies with counts that
fit a 64-bit word. -/
inductive Read : Circuit → Prop
  /-- The circuit without operations. -/
  | nil : Read []
  /-- The instruction of a line is appended. -/
  | push {c : Circuit} {number : Nat} {line : List Char} {i : Instruction} (hc : Read c)
      (hi : readInstruction number line = .ok i) : Read (c.push i)
  /-- A body is appended, to run a number of times. -/
  | pushRepeat {c body : Circuit} {count : Nat} (hc : Read c) (hbody : Read body)
      (hcount : count < Text.longSize) : Read (c.pushRepeat count body)

/-- What a line does to the state of the reader. -/
inductive LineRead (state : ReaderState) : ReaderState → Prop
  | skipped : LineRead state state
  | closed {parent : OpenBlock} {outer : List OpenBlock} (h : state.outer = parent :: outer) :
      LineRead state
        ⟨⟨parent.count, addReversed parent.operations
          (.block state.current.count state.current.operations.reverse)⟩, outer⟩
  | opened {count : Nat} (h : count < Text.longSize) :
      LineRead state ⟨⟨count, []⟩, state.current :: state.outer⟩
  | instruction {number : Nat} {line : List Char} {i : Instruction}
      (h : readInstruction number line = .ok i) :
      LineRead state
        ⟨⟨state.current.count, pushReversed state.current.operations i⟩, state.outer⟩

theorem lt_of_repeatCount? {rest : List Char} {count : Nat} (h : repeatCount? rest = some count) :
    count < Text.longSize := by
  obtain ⟨text, -, hcount⟩ := Option.bind_eq_some_iff.1 h
  exact Text.lt_of_natBelow? hcount

theorem lineRead_of_readLine {state next : ReaderState} {number : Nat} {raw : List Char}
    (h : readLine state number raw = .ok next) : LineRead state next := by
  simp only [readLine] at h
  split at h
  · cases h
    exact .skipped
  split at h
  · split at h
    · cases h
    · next parent outer houter =>
      cases h
      exact .closed houter
  split at h
  · split at h
    · next count hcount =>
      cases h
      exact .opened (lt_of_repeatCount? hcount)
    · cases h
  · obtain ⟨i, hi, rfl⟩ := map_eq_ok.1 h
    exact .instruction hi

/-- The operations of an open block are put together from lines. -/
structure OpenBlock.IsRead (block : OpenBlock) : Prop where
  operations : Read block.operations.reverse
  count : block.count < Text.longSize

/-- Every open block has been read from lines. -/
structure ReadState (state : ReaderState) : Prop where
  current : state.current.IsRead
  outer : ∀ block ∈ state.outer, block.IsRead

theorem LineRead.readState {state next : ReaderState} (h : LineRead state next)
    (hstate : ReadState state) : ReadState next := by
  cases h with
  | skipped => exact hstate
  | closed houter =>
    have hblocks := hstate.outer
    rw [houter, List.forall_mem_cons] at hblocks
    refine ⟨⟨?_, hblocks.1.count⟩, hblocks.2⟩
    have hpush := Read.pushRepeat hblocks.1.operations hstate.current.operations
      hstate.current.count
    rwa [pushRepeat, pushOperation, List.reverse_reverse] at hpush
  | opened hcount =>
    exact ⟨⟨.nil, hcount⟩, List.forall_mem_cons.2 ⟨hstate.current, hstate.outer⟩⟩
  | instruction hread =>
    refine ⟨⟨?_, hstate.current.count⟩, hstate.outer⟩
    have hpush := Read.push hstate.current.operations hread
    rwa [push, List.reverse_reverse] at hpush

theorem readState_of_readLines {lines : List (List Char)} {state last : ReaderState}
    {number : Nat} (h : readLines state number lines = .ok last) (hstate : ReadState state) :
    ReadState last := by
  induction lines generalizing state number with
  | nil =>
    cases h
    exact hstate
  | cons line rest ih =>
    rw [readLines] at h
    split at h
    · next next hnext =>
      apply ih h
      exact (lineRead_of_readLine hnext).readState hstate
    · cases h

/-- A circuit read from text is put together from its lines. -/
theorem Read.of_parse {text : String} {c : Circuit} (h : parse text = .ok c) : Read c := by
  simp only [parse] at h
  split at h
  · cases h
  · next state hstate =>
    split at h
    · cases h
      refine (readState_of_readLines hstate ⟨⟨.nil, ?_⟩, ?_⟩).current.operations
      · decide +kernel
      · simp
    · cases h

theorem Read.built {c : Circuit} (h : Read c) : Built c := by
  induction h with
  | nil => exact .nil
  | push hc hi ih =>
    obtain ⟨name, targets, args, hmake, -⟩ := make_of_readInstruction hi
    exact .push ih hmake
  | pushRepeat hc hbody hcount ih ihbody => exact .pushRepeat ih ihbody _

/-- A circuit read from text is built by appending made instructions and repeated bodies. -/
theorem Built.of_parse {text : String} {c : Circuit} (h : parse text = .ok c) : Built c :=
  (Read.of_parse h).built

end Circuit

end StabCircuit
