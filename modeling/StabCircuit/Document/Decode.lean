import StabCircuit.Json.Basic
import StabCircuit.Memory.Experiment
import StabCircuit.Text.Integer

/-!
# Documents

The JSON forms of coordinates, Pauli products, patches, noise rules and models,
circuits and memory experiments.  Unknown fields are ignored; a missing required
field, a value of the wrong type or out of range, or a tile whose bases do not
fit makes decoding fail.  Circuits are taken as they are, without checks.
-/

namespace StabCircuit

/-- A pair of numbers. -/
def Coord.ofJson? (json : Json) : Option Coord := do
  let (re, im) ← json.pair?
  return .make (← re.scalar?) (← im.scalar?)

/-- The choice of a name without payload. -/
def Json.choice? {α : Type} (choices : List (String × α)) (json : Json) : Option α := do
  let (name, payload) ← json.variant?
  match payload with
  | .null => choices.lookup name
  | _ => none

/-- An upper-case letter. -/
def Basis.ofJson? (json : Json) : Option Basis :=
  json.choice? (Basis.all.map fun b => (b.text, b))

/-- A list of pairs of a coordinate and a basis, multiplied in order. -/
def PauliProduct.ofJson? (json : Json) : Option PauliProduct := do
  let terms ← json.listOf? fun term => do
    let (qubit, basis) ← term.pair?
    return (← Coord.ofJson? qubit, ← Basis.ofJson? basis)
  return .ofTerms terms

/-- A tile by its bases, measurement qubit and data slots. -/
def Tile.ofJson? (json : Json) : Option Tile := do
  match ← json.record? ["bases", "measurement_qubit", "ordered_data_qubits"] with
  | [some bases, some position, some data] =>
    let bases ← bases.string?
    let position ← Coord.ofJson? position
    let data ← data.listOf? (Json.nullable? Coord.ofJson?)
    (Tile.make bases position data).toOption
  | _ => none

/-- A list of tiles. -/
def Patch.ofJson? (json : Json) : Option Patch := (json.listOf? Tile.ofJson?).map Patch.make

/-- An object of values; the last of the values that share a name counts. -/
def Json.table? {α : Type} (decode : Json → Option α) : Json → Option (OrderedMap String α)
  | .object fields => do
    let entries ← fields.mapM fun (name, value) => (decode value).map fun v => (name, v)
    return OrderedMap.ofList entries
  | _ => none

/-- A noise rule; both fields may be absent. -/
def NoiseRule.ofJson? (json : Json) : Option NoiseRule := do
  match ← json.record? ["after", "flip_result"] with
  | [after, flip] =>
    return { after := ← Json.orDefault? (Json.table? Json.scalar?) OrderedMap.empty after
             flipResult := ← Json.orDefault? Json.scalar? 0 flip }
  | _ => none

/-- The fields of a noise model. -/
def NoiseModel.fieldNames : List String :=
  ["idle_depolarization", "additional_depolarization_waiting_for_m_or_r", "tick_noise",
    "gate_rules", "measure_rules", "any_measurement_rule", "any_clifford_1q_rule",
    "any_clifford_2q_rule", "allow_multiple_uses_of_a_qubit_in_one_tick", "strict"]

/-- A noise model; every field may be absent. -/
def NoiseModel.ofJson? (json : Json) : Option NoiseModel := do
  let rule := Json.orDefault? (Json.nullable? NoiseRule.ofJson?) none
  let table := Json.orDefault? (Json.table? NoiseRule.ofJson?) OrderedMap.empty
  let strength := Json.orDefault? Json.scalar? 0
  let flag := Json.orDefault? Json.bool? false
  match ← json.record? NoiseModel.fieldNames with
  | [idle, waiting, tick, gates, measures, anyMeasure, any1, any2, reuse, strict] =>
    return { idleDepolarization := ← strength idle
             waitingDepolarization := ← strength waiting
             tickNoise := ← rule tick
             gateRules := ← table gates
             measureRules := ← table measures
             anyMeasurement := ← rule anyMeasure
             anyClifford1 := ← rule any1
             anyClifford2 := ← rule any2
             allowReuse := ← flag reuse
             strict := ← flag strict }
  | _ => none

/-- The index of a qubit or sweep bit. -/
def Json.index? (json : Json) : Option Nat := json.natBelow? Text.wordSize

/-- A target by its kind. -/
def Target.ofJson? (json : Json) : Option Target := do
  let (kind, payload) ← json.variant?
  match kind with
  | "Qubit" => return .qubit (← payload.index?)
  | "Pauli" =>
    match ← payload.record? ["basis", "qubit"] with
    | [some letter, some position] => return .pauli (← Basis.ofJson? letter) (← position.index?)
    | _ => none
  | "Rec" => return .record (← payload.intWithin? Text.halfWord)
  | "Sweep" => return .sweep (← payload.index?)
  | "Combiner" =>
    match payload with
    | .null => return .combiner
    | _ => none
  | _ => none

/-- An instruction as it is, whatever its name and targets. -/
def Instruction.ofJson? (json : Json) : Option Instruction := do
  match ← json.record? ["name", "targets", "args"] with
  | [some name, some targets, some args] =>
    return { name := ← name.string?
             targets := ← targets.listOf? Target.ofJson?
             args := ← args.listOf? Json.scalar? }
  | _ => none

mutual

/-- How deeply lists and objects are nested. -/
def Json.depth : Json → Nat
  | .array items => Json.listDepth items + 1
  | .object fields => Json.fieldsDepth fields + 1
  | _ => 0

/-- The greatest depth of items. -/
def Json.listDepth : List Json → Nat
  | [] => 0
  | item :: items => max (Json.depth item) (Json.listDepth items)

/-- The greatest depth of field values. -/
def Json.fieldsDepth : List (String × Json) → Nat
  | [] => 0
  | (_, value) :: fields => max (Json.depth value) (Json.fieldsDepth fields)

end

/-- A circuit whose blocks are nested at most `fuel` deep. -/
def Circuit.decodeNested? : Nat → Json → Option Circuit
  | 0, _ => none
  | fuel + 1, json => do
    match ← json.record? ["operations"] with
    | [some operations] =>
      operations.listOf? fun operation => do
        let (kind, payload) ← operation.variant?
        match kind with
        | "Instruction" => return .instruction (← Instruction.ofJson? payload)
        | "Repeat" =>
          match ← payload.record? ["count", "body"] with
          | [some count, some body] =>
            return .block (← count.natBelow? Text.longSize) (← Circuit.decodeNested? fuel body)
          | _ => none
        | _ => none
    | _ => none

/-- A circuit as it is, without merging or checks. -/
def Circuit.ofJson? (json : Json) : Option Circuit := Circuit.decodeNested? (json.depth + 1) json

/-- A check style by name. -/
def CheckStyle.ofJson? (json : Json) : Option CheckStyle :=
  json.choice? [("product_measurement", .product), ("ancilla_controlled", .ancilla)]

/-- The fields of a memory experiment. -/
def MemoryExperiment.fieldNames : List String :=
  ["patch", "noise", "observables_x", "observables_z", "ancillas", "rounds", "style"]

/-- A memory experiment; only the patch is required. -/
def MemoryExperiment.ofJson? (json : Json) : Option MemoryExperiment := do
  let products := Json.orDefault? (Json.listOf? PauliProduct.ofJson?) []
  match ← json.record? MemoryExperiment.fieldNames with
  | [some patch, noise, xs, zs, ancillas, rounds, style] =>
    return { patch := ← Patch.ofJson? patch
             noise := ← Json.orDefault? NoiseRule.ofJson? .silent noise
             observablesX := ← products xs
             observablesZ := ← products zs
             ancillas := ←
              Json.orDefault? (Json.nullable? (Json.listOf? Coord.ofJson?)) none ancillas
             rounds := ← Json.orDefault? (Json.natBelow? Text.longSize) 1 rounds
             style := ← Json.orDefault? CheckStyle.ofJson? .product style }
  | _ => none

end StabCircuit
