import StabCircuit.Error
import StabCircuit.Target

/-!
# The measurement record

A tracker binds keys to sets of measurement indices.  A key is bound once, to
the next result, to the parity of keys bound before, or to an obstacle that may
not be referenced.  Resolving keys takes the symmetric difference of their index
sets, so a result that occurs an even number of times drops out.

Counts and indices are 64-bit numbers.  The arithmetic on them is checked, so that a
call whose counts do not fit fails, and calls that succeed have counted exactly.
-/

namespace StabCircuit

namespace Count

/-- The sum of two counts. -/
def add (a b : Nat) : Except CircuitError Nat :=
  if a + b < Text.longSize then .ok (a + b) else .error (.invalidArgument (.overflow .add))

/-- The difference of two counts. -/
def subtract (a b : Nat) : Except CircuitError Nat :=
  if b ≤ a then .ok (a - b) else .error (.invalidArgument (.overflow .subtract))

/-- The product of two counts. -/
def multiply (a b : Nat) : Except CircuitError Nat :=
  if a * b < Text.longSize then .ok (a * b) else .error (.invalidArgument (.overflow .multiply))

end Count

/-- Bindings of keys to measurement indices. -/
structure Tracker where
  /-- The bindings, newest first; an obstacle has no indices. -/
  bindings : List (Key × Option (List Nat))
  /-- The number of results recorded so far. -/
  count : Nat
deriving DecidableEq, Inhabited

namespace Tracker

/-- The tracker without results. -/
def empty : Tracker := ⟨[], 0⟩

/-- What a key is bound to. -/
def find? (t : Tracker) (key : Key) : Option (Option (List Nat)) := t.bindings.lookup key

/-- Whether a key is bound, to whatever. -/
def contains (t : Tracker) (key : Key) : Bool := (t.find? key).isSome

/-- Binds a fresh key. -/
def bind (t : Tracker) (key : Key) (value : Option (List Nat)) : Except CircuitError Tracker :=
  if t.contains key then .error (.keyCollision key)
  else .ok { t with bindings := (key, value) :: t.bindings }

/-- Binds a key to the next result. -/
def record (t : Tracker) (key : Key) : Except CircuitError Tracker :=
  (t.bind key (some [t.count])).bind fun bound =>
    (Count.add bound.count 1).map fun count => { bound with count }

/-- Binds keys to the next results, one after another. -/
def recordAll (t : Tracker) : List Key → Except CircuitError Tracker
  | [] => .ok t
  | key :: keys => (t.record key).bind fun t => t.recordAll keys

/-- Binds a key to an obstacle. -/
def recordObstacle (t : Tracker) (key : Key) : Except CircuitError Tracker := t.bind key none

/-- Takes an index in, or out when it is in already. -/
def toggle (indices : OrderedSet Nat) (index : Nat) : OrderedSet Nat :=
  OrderedMap.alter indices index fun
    | none => some ()
    | some _ => none

/-- The indices of one key. -/
def indicesOf (t : Tracker) (key : Key) : Except CircuitError (List Nat) :=
  match t.find? key with
  | none => .error (.unboundKey key)
  | some none => .error (.obstacleReference key)
  | some (some indices) => .ok indices

/-- Toggles the indices of keys, one key after another. -/
def toggleKeys (t : Tracker) (indices : OrderedSet Nat) :
    List Key → Except CircuitError (OrderedSet Nat)
  | [] => .ok indices
  | key :: keys =>
    match t.indicesOf key with
    | .error e => .error e
    | .ok found => t.toggleKeys (found.foldl toggle indices) keys

/-- The symmetric difference of the index sets of keys, ascending. -/
def indices (t : Tracker) (keys : List Key) : Except CircuitError (List Nat) :=
  (t.toggleKeys OrderedMap.empty keys).map OrderedSet.toList

/-- Binds a key to the parity of keys bound before. -/
def recordGroup (t : Tracker) (parts : List Key) (key : Key) : Except CircuitError Tracker :=
  (t.indices parts).bind fun indices => t.bind key (some indices)

/-- Moves the indices from `start` on by `shift`. -/
def shiftFrom (t : Tracker) (start shift : Nat) : Tracker :=
  { bindings := t.bindings.map fun (key, value) =>
      (key, value.map fun indices =>
        indices.map fun index => if start ≤ index then index + shift else index)
    count := t.count + shift }

/-- Accounts for the last `body` results being produced `times` times in all; keys bound to them
move to the last repetition. -/
def repeatRecent (t : Tracker) (body times : Nat) : Except CircuitError Tracker :=
  if body = 0 then .ok t
  else if times = 0 then .error (.invalidArgument .repeatZero)
  else if t.count < body then .error (.invalidArgument (.repeatBeyondRecord t.count body))
  else
    (Count.multiply (times - 1) body).bind fun shift =>
      -- Indices are below the count, so that an index that does not fit is one too many for it.
      (Count.add t.count shift).map fun _ => t.shiftFrom (t.count - body) shift

/-- The record target for an index, counted back from the present. -/
def targetOf (t : Tracker) (index : Nat) : Except CircuitError Target :=
  (Count.subtract t.count index).bind fun back =>
    if back < Text.halfWord then .ok (.record (-(back : Int)))
    else .error (.invalidArgument (.tooFarBack index))

/-- The record targets for the parity of keys. -/
def recordTargets (t : Tracker) (keys : List Key) : Except CircuitError (List Target) :=
  (t.indices keys).bind fun indices => indices.mapM t.targetOf

end Tracker

end StabCircuit
