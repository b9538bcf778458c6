import StabCircuit.Circuit.Count
import StabCircuit.CompileError
import StabCircuit.Noise.Model

/-!
# Noise injection

A circuit is decorated with noise one moment, the span between step boundaries,
at a time.  Every piece of every operation is looked up in the noise model;
measurements get their flip probability, and the channels of the rules are
collected and written at the end of the moment, followed by idle noise and the
noise of every moment.  Bodies of repeat blocks are made to end with a step
boundary.
-/

namespace StabCircuit

/-- An error channel with its strength, ordered by name and then by strength. -/
structure ChannelKey where
  /-- The name of the channel as the rule writes it. -/
  name : String
  /-- The probability. -/
  strength : Scalar
deriving DecidableEq

namespace ChannelKey

/-- Comparison by name, then by strength. -/
def order : ChannelKey → ChannelKey → Ordering :=
  compareLex (compareOn ChannelKey.name) (compareOn fun k => k.strength.rank)

instance : Ord ChannelKey := ⟨order⟩

instance : Std.TransCmp order := by
  unfold order
  infer_instance

instance : Std.TransOrd ChannelKey := inferInstanceAs (Std.TransCmp order)

end ChannelKey

/-- What noise injection works with. -/
structure NoiseContext where
  /-- The noise model. -/
  model : NoiseModel
  /-- Qubits that never receive noise. -/
  immune : OrderedSet Nat
  /-- Qubits that exist for idle noise. -/
  system : OrderedSet Nat

/-- What the operations of a moment have done so far. -/
structure Moment where
  /-- Qubits used by any operation. -/
  used : List Nat := []
  /-- Qubits used by operations without classical control. -/
  exclusive : List Nat := []
  /-- Qubits reset or measured. -/
  collapsed : List Nat := []
  /-- Channels to be written at the end, with their qubits in order. -/
  after : OrderedMap ChannelKey (List Nat) := OrderedMap.empty
  /-- Whether there was anything but annotations. -/
  active : Bool := false

namespace Moment

/-- Takes in qubits used by an operation that excludes others; a qubit used before is an error
unless `allowReuse`. -/
def claim (allowReuse : Bool) (gate : String) (m : Moment) :
    List Nat → Except CompileError Moment
  | [] => .ok m
  | q :: rest =>
    if m.exclusive.contains q && !allowReuse then .error (.qubitReused q gate)
    else claim allowReuse gate { m with exclusive := q :: m.exclusive } rest

/-- Adds qubits to a channel. -/
def addChannel (m : Moment) (name : String) (p : Scalar) (qubits : List Nat) : Moment :=
  { m with after := m.after.alter ⟨name, p⟩ fun old => some (old.getD [] ++ qubits) }

end Moment

namespace NoiseContext

/-- Fails when a two-qubit channel would act on an odd number of qubits. -/
def checkArity (channel : String) (qubits : Nat) (context : String) : Except CompileError Unit :=
  let pairwise := (Gate.ofName? channel).any fun g => g.kind.isPairwise
  if pairwise && qubits % 2 != 0 then
    .error (.invalidConfiguration (.oddChannel channel context qubits))
  else .ok ()

/-- Notes what a piece does to its qubits. -/
def observe (ctx : NoiseContext) (m : Moment) (piece : Instruction) : Except CompileError Moment :=
  let qubits := piece.qubits
  if piece.kind.isNoise then .ok m
  else do
    let m := { m with used := qubits ++ m.used }
    let m ← if piece.isClassicallyControlled then .ok m
      else m.claim ctx.model.allowReuse piece.name qubits
    if piece.kind.isCollapsing then
      return { m with collapsed := qubits ++ m.collapsed }
    return m

/-- Collects the channels of a rule for a piece. -/
def collect (m : Moment) (piece : Instruction) :
    List (String × Scalar) → Except CompileError Moment
  | [] => .ok m
  | (channel, p) :: rest =>
    if (0 : Scalar).numLt p then do
      checkArity channel piece.qubits.length piece.name
      collect (m.addChannel channel p piece.qubits) piece rest
    else collect m piece rest

/-- Applies a rule to a piece: collects its channels and sets the flip probability. -/
def applyRule (rule : NoiseRule) (m : Moment) (piece : Instruction) :
    Except CompileError (Moment × Instruction) := do
  let m ← collect m piece rule.after.entries
  if (0 : Scalar).numLt rule.flipResult then
    if piece.kind.isMeasurement then
      return (m, { piece with args := [rule.flipResult] })
    else .error (.invalidConfiguration (.flipWithoutResult piece.name))
  else return (m, piece)

/-- Notes a piece and gives it its flip probability. -/
def piece (ctx : NoiseContext) (m : Moment) (piece : Instruction) :
    Except CompileError (Moment × Instruction) := do
  let m ← ctx.observe m piece
  if piece.qubits.any fun q => ctx.immune.contains q then
    return (m, piece)
  match ctx.model.ruleFor piece with
  | .rule rule => applyRule rule m piece
  | .missing => if ctx.model.strict then .error (.noNoiseRule piece) else return (m, piece)
  | .exempt => return (m, piece)

/-- The pieces of an instruction, each an instruction of its own. -/
def piecesOf (i : Instruction) : List Instruction :=
  i.targetGroups.map fun group =>
    { i with targets := if i.kind.isProduct then Target.joinProduct group else group }

/-- Copies out pieces with their flip probabilities. -/
def copyPieces (ctx : NoiseContext) (m : Moment) (done : List Operation) :
    List Instruction → Except CompileError (Moment × List Operation)
  | [] => .ok (m, done)
  | p :: rest => do
    let (m, noisy) ← ctx.piece m p
    copyPieces ctx m (Circuit.pushReversed done noisy) rest

/-- Copies out the instructions of a moment. -/
def copyMoment (ctx : NoiseContext) (m : Moment) (done : List Operation) :
    List Instruction → Except CompileError (Moment × List Operation)
  | [] => .ok (m, done)
  | i :: rest =>
    if i.kind.isMetadata then copyMoment ctx m (Circuit.pushReversed done i) rest
    else do
      let (m, done) ← ctx.copyPieces { m with active := true } done (piecesOf i)
      copyMoment ctx m done rest

/-- Appends a channel on qubits. -/
def appendChannel (done : List Operation) (channel : String) (qubits : List Nat) (p : Scalar) :
    Except CompileError (List Operation) :=
  (CompileError.lift (Instruction.make channel (qubits.map .qubit) [p])).map
    (Circuit.pushReversed done)

/-- Appends the collected channels of a moment. -/
def appendCollected (done : List Operation) :
    List (ChannelKey × List Nat) → Except CompileError (List Operation)
  | [] => .ok done
  | (key, qubits) :: rest => do
    let done ← appendChannel done key.name qubits key.strength
    appendCollected done rest

/-- The qubits of the system that can receive noise and satisfy a test. -/
def noisyQubits (ctx : NoiseContext) (keep : Nat → Bool) : List Nat :=
  ctx.system.toList.filter fun q => !ctx.immune.contains q && keep q

/-- Appends depolarization of a positive strength on qubits, if there are any. -/
def appendIdle (done : List Operation) (p : Scalar) (qubits : List Nat) :
    Except CompileError (List Operation) :=
  if (0 : Scalar).numLt p && !qubits.isEmpty then
    appendChannel done Gate.depolarize1.name qubits p
  else .ok done

/-- Appends the channels of the noise of every moment. -/
def appendTickNoise (qubits : List Nat) (done : List Operation) :
    List (String × Scalar) → Except CompileError (List Operation)
  | [] => .ok done
  | (channel, p) :: rest =>
    if (0 : Scalar).numLt p then do
      checkArity channel qubits.length "tick noise"
      let done ← appendChannel done channel qubits p
      appendTickNoise qubits done rest
    else appendTickNoise qubits done rest

/-- Appends the noise that does not belong to an operation. -/
def appendBackground (ctx : NoiseContext) (m : Moment) (done : List Operation) :
    Except CompileError (List Operation) := do
  let idling := ctx.noisyQubits fun q => !m.used.contains q
  let waiting := if m.collapsed.isEmpty then []
    else ctx.noisyQubits fun q => !m.collapsed.contains q
  let done ← appendIdle done ctx.model.idleDepolarization idling
  let done ← appendIdle done ctx.model.waitingDepolarization waiting
  match ctx.model.tickNoise with
  | none => .ok done
  | some rule =>
    let qubits := ctx.noisyQubits fun _ => true
    if qubits.isEmpty then .ok done else appendTickNoise qubits done rule.after.entries

/-- Copies out a moment with all its noise. -/
def moment (ctx : NoiseContext) (done : List Operation) (instructions : List Instruction) :
    Except CompileError (List Operation) := do
  let (m, done) ← ctx.copyMoment {} done instructions
  let done ← appendCollected done m.after.entries
  if m.active then ctx.appendBackground m done else .ok done

/-- A circuit being copied out: the operations written and the instructions of the open moment,
both in reverse order. -/
structure Progress where
  /-- The operations written, in reverse order. -/
  done : List Operation := []
  /-- The instructions of the open moment, in reverse order. -/
  pending : List Instruction := []

/-- Writes the open moment. -/
def flush (ctx : NoiseContext) (p : Progress) : Except CompileError (List Operation) :=
  ctx.moment p.done p.pending.reverse

/-- A body that ends with a step boundary, given in reverse order. -/
def closeBody (reversed : List Operation) : Circuit :=
  let body : Circuit := reversed.reverse
  if body.endsWithTick then body else body.tick

mutual

/-- Takes in one operation. -/
def stepOperation (ctx : NoiseContext) (p : Progress) :
    Operation → Except CompileError Progress
  | .instruction i =>
    if i.isTick then
      (ctx.flush p).map fun done => { done := Circuit.pushReversed done .tick }
    else .ok { p with pending := i :: p.pending }
  | .block count body => do
    let done ← ctx.flush p
    let inner ← stepAll ctx {} body
    let inner ← ctx.flush inner
    return { done := Circuit.addReversed done (.block count (closeBody inner)) }

/-- Takes in operations one after another. -/
def stepAll (ctx : NoiseContext) (p : Progress) :
    List Operation → Except CompileError Progress
  | [] => .ok p
  | op :: rest => do
    let p ← stepOperation ctx p op
    stepAll ctx p rest

end

/-- The circuit with noise. -/
def inject (ctx : NoiseContext) (c : Circuit) : Except CompileError Circuit := do
  let p ← stepAll ctx {} c
  let done ← ctx.flush p
  return done.reverse

end NoiseContext

/-- The circuit with noise from a model.  Operations on immune qubits are left alone; idle noise
applies to `system`, by default every qubit of the circuit. -/
def noisyCircuit (c : Circuit) (model : NoiseModel) (immune : OrderedSet Nat)
    (system : Option (OrderedSet Nat)) : Except CompileError Circuit := do
  CompileError.lift model.validate
  NoiseContext.inject { model, immune, system := system.getD (Circuit.qubits c) } c

end StabCircuit
