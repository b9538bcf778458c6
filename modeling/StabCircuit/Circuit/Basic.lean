import StabCircuit.Instruction

/-!
# Circuits

A circuit is a list of operations: instructions and repeat blocks.  Appending an
instruction merges it into the last one when both have the same fusable gate and
equal arguments; a repeat block with count zero vanishes and one with count one
is spliced in.
-/

namespace StabCircuit

/-- One entry of a circuit. -/
inductive Operation where
  /-- A plain instruction. -/
  | instruction (instruction : Instruction)
  /-- A body of operations repeated a number of times. -/
  | block (count : Nat) (body : List Operation)
deriving Inhabited

/-- A list of operations. -/
abbrev Circuit : Type := List Operation

namespace Operation

mutual

/-- Equality of operations, arguments compared as numbers. -/
def numEq : Operation → Operation → Bool
  | instruction i, instruction j => i.numEq j
  | block m body, block n other => m == n && numEqAll body other
  | _, _ => false

/-- Equality of circuits, arguments compared as numbers. -/
def numEqAll : List Operation → List Operation → Bool
  | [], [] => true
  | a :: as, b :: bs => numEq a b && numEqAll as bs
  | _, _ => false

end

end Operation

namespace Circuit

/-- Whether `next` merges into `last`. -/
def fuses (last next : Instruction) : Bool :=
  next.gate?.any Gate.isFusable && last.name == next.name &&
    Scalar.listNumEq last.args next.args

/-- Appends an instruction to operations in reverse order, merging it into the first. -/
def pushReversed (ops : List Operation) (next : Instruction) : List Operation :=
  match ops with
  | .instruction last :: rest =>
    if fuses last next then
      .instruction { last with targets := last.targets ++ next.targets } :: rest
    else .instruction next :: ops
  | _ => .instruction next :: ops

mutual

/-- Appends an operation to operations in reverse order, splicing blocks that run once. -/
def addReversed (ops : List Operation) : Operation → List Operation
  | .instruction i => pushReversed ops i
  | .block 0 _ => ops
  | .block 1 body => addAllReversed ops body
  | .block (n + 2) body => .block (n + 2) body :: ops

/-- Appends operations one after another to operations in reverse order. -/
def addAllReversed (ops : List Operation) : List Operation → List Operation
  | [] => ops
  | op :: rest => addAllReversed (addReversed ops op) rest

end

/-- Appends an instruction, merging it into the last one when possible. -/
def push (c : Circuit) (i : Instruction) : Circuit := (pushReversed c.reverse i).reverse

/-- Appends an operation; instructions merge, blocks that run at most once dissolve. -/
def pushOperation (c : Circuit) (op : Operation) : Circuit := (addReversed c.reverse op).reverse

/-- Appends every operation of another circuit. -/
def extend (c other : Circuit) : Circuit := (addAllReversed c.reverse other).reverse

/-- Appends a body repeated a number of times. -/
def pushRepeat (c : Circuit) (count : Nat) (body : Circuit) : Circuit :=
  c.pushOperation (.block count body)

/-- A circuit repeated a number of times. -/
def repeated (c : Circuit) (count : Nat) : Circuit := pushRepeat [] count c

/-- Appends a step boundary. -/
def tick (c : Circuit) : Circuit := c.push .tick

/-- Appends a checked instruction. -/
def append (c : Circuit) (name : String) (targets : List Target) (args : List Scalar) :
    Except CircuitError Circuit :=
  (Instruction.make name targets args).map c.push

/-- Whether the last operation is a step boundary. -/
def endsWithTick (c : Circuit) : Bool :=
  match c.getLast? with
  | some (.instruction i) => i.isTick
  | _ => false

mutual

/-- The operations of a circuit with every repeat block unrolled, in reverse order. -/
def flattenReversed (done : List Operation) : List Operation → List Operation
  | [] => done
  | op :: rest => flattenReversed (flattenOperation done op) rest

/-- Appends one operation, unrolled, to operations in reverse order. -/
def flattenOperation (done : List Operation) : Operation → List Operation
  | .instruction i => pushReversed done i
  | .block count body =>
    let unrolled := (flattenReversed [] body).reverse
    Nat.repeat (fun ops => addAllReversed ops unrolled) count done

end

/-- The circuit with every repeat block unrolled. -/
def flattened (c : Circuit) : Circuit := (flattenReversed [] c).reverse

end Circuit

end StabCircuit
