import StabCircuit.Circuit.Basic

/-!
# Circuit statistics

Measurements, step boundaries, qubits and gate counts of a circuit, with repeat
blocks weighted by their count.  Gate counts name what is measured (`MXX` for a
product of two X factors) and set classically controlled gates apart.
-/

namespace StabCircuit

namespace Circuit

mutual

/-- The results that an operation appends to the measurement record. -/
def operationMeasurements : Operation → Nat
  | .instruction i => i.measurementCount
  | .block count body => count * measurementCount body

/-- The results that a circuit appends to the measurement record. -/
def measurementCount : List Operation → Nat
  | [] => 0
  | op :: rest => operationMeasurements op + measurementCount rest

end

mutual

/-- The step boundaries of an operation. -/
def operationTicks : Operation → Nat
  | .instruction i => if i.isTick then 1 else 0
  | .block count body => count * tickCount body

/-- The step boundaries of a circuit. -/
def tickCount : List Operation → Nat
  | [] => 0
  | op :: rest => operationTicks op + tickCount rest

end

mutual

/-- The instructions of an operation, each once, whatever the repeat counts. -/
def operationInstructions : Operation → List Instruction
  | .instruction i => [i]
  | .block _ body => instructions body

/-- The instructions written in a circuit, at every depth, each once. -/
def instructions : List Operation → List Instruction
  | [] => []
  | op :: rest => operationInstructions op ++ instructions rest

end

/-- Every qubit index that occurs at any depth. -/
def qubits (c : Circuit) : OrderedSet Nat :=
  OrderedSet.ofList ((instructions c).flatMap Instruction.qubits)

/-- One more than the largest qubit index. -/
def qubitCount (c : Circuit) : Nat :=
  match (qubits c).toList.getLast? with
  | some q => q + 1
  | none => 0

/-- The name under which the measurement of a product is counted. -/
def productName (group : List Target) : String :=
  match group.filterMap Target.basis? with
  | [.z] => "M"
  | bases => "M" ++ String.ofList (bases.map Basis.letter)

/-- The name under which a pair of targets of a two-qubit gate is counted. -/
def pairName (gate : String) (pair : List Target) : String :=
  if pair.any Target.isRecord then "feedback"
  else if pair.any Target.isSweep then "sweep"
  else gate

/-- The names under which an instruction is counted, with their numbers. -/
def instructionCounts (i : Instruction) : List (String × Nat) :=
  match i.kind with
  | .measureProduct => (Target.productGroups i.targets).map fun g => (productName g, 1)
  | .clifford2 => (Target.pairs i.targets).map fun pair => (pairName i.name pair, 1)
  | .noise2 => [(i.name, i.targets.length / 2)]
  | .metadata | .tick | .noiseProduct => [(i.name, 1)]
  | _ => [(i.name, i.targets.length)]

/-- Adds an amount to a counter. -/
def addCount (counts : OrderedMap String Nat) (name : String) (amount : Nat) :
    OrderedMap String Nat :=
  counts.alter name fun old => some (old.getD 0 + amount)

mutual

/-- Adds the counts of an operation, each taken `weight` times. -/
def countOperation (weight : Nat) (counts : OrderedMap String Nat) :
    Operation → OrderedMap String Nat
  | .instruction i =>
    (instructionCounts i).foldl (fun counts (name, n) => addCount counts name (n * weight)) counts
  | .block count body => countAll (weight * count) counts body

/-- Adds the counts of a list of operations, each taken `weight` times. -/
def countAll (weight : Nat) (counts : OrderedMap String Nat) :
    List Operation → OrderedMap String Nat
  | [] => counts
  | op :: rest => countAll weight (countOperation weight counts op) rest

end

/-- How often each operation is applied when repeat blocks are unrolled. -/
def gateCounts (c : Circuit) : OrderedMap String Nat := countAll 1 OrderedMap.empty c

/-- The names under which operations are counted. -/
def gatesUsed (c : Circuit) : OrderedSet String :=
  OrderedSet.ofList ((instructions c).flatMap fun i => (instructionCounts i).map (·.1))

end Circuit

end StabCircuit
