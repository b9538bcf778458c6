import StabCircuit.Circuit.Parser
import StabCircuit.Circuit.Printer
import StabCircuit.CommandLine.Options
import StabCircuit.Document.Decode
import StabCircuit.Json.Printer
import StabCircuit.Json.Reader
import StabCircuit.Pass.Pipeline
import StabCircuit.Text.LowerCase

/-!
# Running commands

A command reads files, writes text to its two output channels and may write a
file.  All of it is a function of the files: the outcome lists what is printed
and written.  A failure ends with one line that joins its causes.
-/

namespace StabCircuit

namespace CommandLine

/-- A file by name with its text. -/
abbrev Files : Type := List (String × String)

/-- What a command has printed and written. -/
structure Transcript where
  /-- The text on standard output. -/
  stdout : String := ""
  /-- The lines on standard error. -/
  stderr : List String := []
  /-- The files created or changed. -/
  written : Files := []

/-- What a finished command leaves behind. -/
structure Outcome where
  /-- The exit code. -/
  exit : Nat
  /-- What was printed and written. -/
  transcript : Transcript

/-- Steps of a command; a failure lists its causes, outermost first. -/
abbrev Console (α : Type) : Type := ExceptT (List String) (StateM Transcript) α

namespace Console

/-- Prints a line on standard error. -/
def note (line : String) : Console Unit :=
  modify fun t => { t with stderr := t.stderr ++ [line] }

/-- Prints text on standard output. -/
def print (text : String) : Console Unit := modify fun t => { t with stdout := t.stdout ++ text }

/-- Fails with a single cause. -/
def fail {α : Type} (cause : String) : Console α := throw [cause]

end Console

/-- The components of a path; a component that stands for its own directory is dropped. -/
def pathParts (path : String) : List (List Char) :=
  (Text.pieces (· == '/') path.toList).filter fun part => !part.isEmpty && part != ['.']

/-- A relative path without components that stand for their own directory. -/
def plainPath (path : String) : String := "/".intercalate ((pathParts path).map String.ofList)

/-- Whether a path is relative and ends in a name, as the path of a file does. -/
def isFilePath (path : String) : Bool :=
  let pieces := Text.pieces (· == '/') path.toList
  path.toList.head? != some '/' &&
    pieces.getLast?.any fun part => !part.isEmpty && part != ['.'] && part != ['.', '.']

/-- The text of a file among given ones. -/
def findFile? (files : Files) (path : String) : Option String :=
  if isFilePath path then
    (files.find? fun file => pathParts file.1 == pathParts path).map (·.2)
  else none

/-- Whether a file can be created next to given ones: its directory is the current one or holds
one of them, and it is not itself such a directory. -/
def isBeside (files : Files) (path : String) : Bool :=
  let holds := fun (folder : List (List Char)) =>
    files.any fun file => folder.isPrefixOf (pathParts file.1).dropLast
  let folder := (pathParts path).dropLast
  isFilePath path && (folder.isEmpty || holds folder) && !holds (pathParts path)

/-- What a command sees of the file system. -/
structure World where
  /-- The text of a file that can be read. -/
  read? : String → Option String
  /-- Whether a file can be written. -/
  writable : String → Bool

/-- The world that consists of given files. -/
def World.ofFiles (files : Files) : World := ⟨findFile? files, isBeside files⟩

/-- The text of a file, or a failure when there is none. -/
def readSource (w : World) (path : String) : Console String :=
  match w.read? path with
  | some text => pure text
  | none => Console.fail ("File not found: " ++ path)

/-- Reads a circuit file. -/
def loadCircuit (w : World) (path : String) : Console Circuit := do
  match Circuit.parse (← readSource w path) with
  | .ok c => return c
  | .error e => Console.fail ("Parse error in " ++ path ++ ": " ++ e.message)

/-- Reads a JSON document. -/
def loadDocument {α : Type} (decode : Json → Option α) (w : World) (path : String) :
    Console α := do
  match (Json.read? (← readSource w path).toList).bind decode with
  | some a => return a
  | none => Console.fail ("Invalid JSON in " ++ path)

/-- Writes a circuit to a file or to standard output. -/
def writeCircuit (w : World) (c : Circuit) (output : Option String) : Console Unit :=
  match output with
  | none => Console.print (Circuit.text c)
  | some path =>
    if w.writable path then
      let text := Circuit.text c
      if w.read? path = some text then pure ()
      else modify fun t => { t with written := t.written ++ [(path, text)] }
    else Console.fail ("Failed to write file: " ++ path)

/-- A named preset with its strength. -/
structure Preset where
  /-- The name in lower case. -/
  name : String
  /-- The strength, between zero and one. -/
  strength : Scalar

/-- Reads a preset `name:strength`; a text without a colon is none. -/
def readPreset (text : String) : Console (Option Preset) := do
  let chars := text.toList
  match chars.dropWhile (· != ':') with
  | [] => return none
  | _ :: tail =>
    let digits := Text.trim tail
    match Scalar.read? digits with
    | none =>
      throw ["Invalid noise strength in '" ++ text ++ "'",
        if digits.isEmpty then "cannot parse float from empty string"
        else "invalid float literal"]
    | some p =>
      if (0 : Scalar).numLe p && p.numLe 1 then
        let name := String.ofList (Text.trim (chars.takeWhile (· != ':')))
        return some { name := Text.lowerCase name, strength := p }
      else Console.fail ("Noise strength " ++ p.plain ++ " is outside [0, 1]")

/-- Fails with a context around the cause when a check fails. -/
def checked (context : String) : Except CircuitError Unit → Console Unit
  | .ok () => pure ()
  | .error e => throw [context, e.message]

/-- The noise model of a preset or of a file. -/
def resolveModel (w : World) (text : String) : Console NoiseModel := do
  let model ← match ← readPreset text with
    | none => loadDocument NoiseModel.ofJson? w text
    | some preset =>
      match preset.name with
      | "uniform" | "depolarizing" => pure (NoiseModel.uniform preset.strength)
      | "si1000" => pure (NoiseModel.superconducting preset.strength)
      | other =>
        Console.fail ("Unknown noise model: '" ++ other ++ "'. Available: uniform, si1000")
  checked ("Invalid noise model '" ++ text ++ "'") model.validate
  return model

/-- The noise of a round from a preset, from `none` or from a file. -/
def resolveRule (w : World) (text : String) : Console NoiseRule := do
  let rule ← match ← readPreset text with
    | none =>
      if text.toList.map Char.toLower = "none".toList then pure NoiseRule.silent
      else loadDocument NoiseRule.ofJson? w text
    | some preset =>
      match preset.name with
      | "uniform" | "depolarizing" =>
        pure ((NoiseRule.following .depolarize1 preset.strength).flipping preset.strength)
      | "bitflip" => pure (NoiseRule.following (.pauliError .x) preset.strength)
      | other =>
        Console.fail ("Unknown noise rule: '" ++ other ++ "'. Available: uniform, bitflip")
  checked ("Invalid noise rule '" ++ text ++ "'") rule.validate
  return rule

/-- The causes of a compilation error, outermost first. -/
def causes : CompileError → List String
  | .circuit e => [(CompileError.circuit e).message, e.message]
  | e => [e.message]

/-- Passes on the result of a compilation. -/
def compiled {α : Type} : Except CompileError α → Console α
  | .ok a => pure a
  | .error e => throw (causes e)

/-- A check style by name. -/
def readStyle (name : String) : Console CheckStyle :=
  match Text.lowerCase name with
  | "mpp" | "product" => pure .product
  | "ancilla" => pure .ancilla
  | other =>
    Console.fail ("Unknown check style: '" ++ other ++ "'. Available: mpp, ancilla")

/-- The circuit of an experiment of a named kind. -/
def generateKind (kind : String) (e : MemoryExperiment) : Console Circuit :=
  match Text.lowerCase kind with
  | "phenomenological" | "pheno" => compiled e.phenomenological
  | "code-capacity" | "code_capacity" => compiled e.codeCapacity
  | other =>
    Console.fail ("Unknown experiment kind: '" ++ other ++
      "'. Available: phenomenological, code-capacity")

/-- Generates a memory experiment. -/
def runGenerate (w : World) (o : GenerateOptions) : Console Unit := do
  let e ← loadDocument MemoryExperiment.ofJson? w o.experiment
  let noise ← match o.noise with
    | none => pure e.noise
    | some text => resolveRule w text
  let style ← match o.style with
    | none => pure e.style
    | some name => readStyle name
  let e := { e with noise, style, rounds := o.rounds.getD e.rounds }
  Console.note ("→ Generating " ++ o.kind ++ " memory experiment from " ++ o.experiment)
  let c ← generateKind o.kind e
  Console.note ("✓ Generated " ++ toString (Circuit.qubitCount c) ++ " qubits, " ++
    toString (Circuit.measurementCount c) ++ " measurements")
  writeCircuit w c o.output

/-- Adds noise to a circuit. -/
def runNoise (w : World) (o : NoiseOptions) : Console Unit := do
  let c ← loadCircuit w o.input
  let model ← resolveModel w o.noise
  let model := { model with strict := model.strict || o.strict }
  Console.note ("→ Adding " ++ o.noise ++ " noise to " ++ o.input)
  if !o.immune.isEmpty then
    Console.note ("  Immune qubits: [" ++ ", ".intercalate (o.immune.map toString) ++ "]")
  let noisy ← compiled (noisyCircuit c model (OrderedSet.ofList o.immune) none)
  Console.note ("✓ Noise added: " ++ toString c.length ++ " -> " ++ toString noisy.length ++
    " operations")
  writeCircuit w noisy o.output

/-- The size of a circuit as operations and step boundaries. -/
def sizeText (c : Circuit) : String :=
  toString c.length ++ " operations, " ++ toString (Circuit.tickCount c) ++ " ticks"

/-- Translates and optimizes a circuit. -/
def runTranspile (w : World) (o : TranspileOptions) : Console Unit := do
  let c ← loadCircuit w o.input
  Console.note ("→ Transpiling " ++ o.input ++ " (" ++ sizeText c ++ ")")
  let config : PipelineConfig := { level := o.level, zBasis := o.zBasis }
  Console.note ("  Running " ++ toString config.passes.length ++ " passes (level " ++
    toString o.level ++ "): " ++ ", ".intercalate (config.passes.map Pass.name))
  let (job, result) := config.run c
  compiled result
  Console.note ("✓ Transpilation complete: " ++ sizeText job.circuit)
  writeCircuit w job.circuit o.output

/-- The statistics of a circuit, repetitions counted. -/
structure Statistics where
  /-- One more than the largest qubit index. -/
  qubits : Nat
  /-- Step boundaries. -/
  ticks : Nat
  /-- Measurement results. -/
  measurements : Nat
  /-- Detectors. -/
  detectors : Nat
  /-- Inclusions into observables. -/
  observables : Nat
  /-- Counts of all other operations. -/
  gates : OrderedMap String Nat

namespace Statistics

/-- The statistics of a circuit. -/
def ofCircuit (c : Circuit) : Statistics :=
  let counts := Circuit.gateCounts c
  let apart := [Gate.detector, .observableInclude, .tick, .qubitCoords, .shiftCoords]
  { qubits := Circuit.qubitCount c
    ticks := Circuit.tickCount c
    measurements := Circuit.measurementCount c
    detectors := (counts.get? Gate.detector.name).getD 0
    observables := (counts.get? Gate.observableInclude.name).getD 0
    gates := apart.foldl (fun counts g => counts.erase g.name) counts }

/-- The statistics as JSON. -/
def toJson (s : Statistics) : Json :=
  .object
    [("qubits", .natural s.qubits), ("ticks", .natural s.ticks),
      ("measurements", .natural s.measurements), ("detectors", .natural s.detectors),
      ("observables", .natural s.observables),
      ("gates", .object (s.gates.entries.map fun (name, n) => (name, .natural n)))]

/-- A text filled up with blanks on the right. -/
def padRight (width : Nat) (text : String) : String :=
  text ++ String.ofList (List.replicate (width - text.length) ' ')

/-- A text filled up with blanks on the left. -/
def padLeft (width : Nat) (text : String) : String :=
  String.ofList (List.replicate (width - text.length) ' ') ++ text

/-- The statistics as a table. -/
def table (s : Statistics) (input : String) : String :=
  let width := s.gates.keys.foldl (fun width name => max width name.length) 0
  let rows := s.gates.entries.map fun (name, n) =>
    "  " ++ padRight width name ++ "  " ++ padLeft 8 (toString n) ++ "\n"
  "Circuit: " ++ input ++ "\n" ++
    "  Qubits:       " ++ toString s.qubits ++ "\n" ++
    "  Ticks:        " ++ toString s.ticks ++ "\n" ++
    "  Measurements: " ++ toString s.measurements ++ "\n" ++
    "  Detectors:    " ++ toString s.detectors ++ "\n" ++
    "  Observables:  " ++ toString s.observables ++ "\n" ++
    "\nGate counts:\n" ++ String.join rows

end Statistics

/-- Shows the statistics of a circuit. -/
def runStats (w : World) (o : StatsOptions) : Console Unit := do
  let c ← loadCircuit w o.input
  let s := Statistics.ofCircuit c
  match Text.lowerCase o.format with
  | "json" => Console.print (s.toJson.pretty ++ "\n")
  | "table" => Console.print (s.table o.input)
  | other => Console.fail ("Unknown format: '" ++ other ++ "'. Available: table, json")

/-- The version information. -/
def versionText : String :=
  "Syndra v0.4.0 - stabilizer circuit generation and noise injection\n\n" ++
    "Components:\n" ++
    "  syndra-ir       Circuit trace, measurement tracking, builder\n" ++
    "  syndra-compile  Noise injection, layer IR, passes, memory experiments\n" ++
    "  syndra-cli      Command-line interface\n\n" ++
    "Repository: https://github.com/syndra-qec/syndra\n" ++
    "License:    Apache-2.0\n"

/-- Runs a command. -/
def runCommand (w : World) : Command → Console Unit
  | .generate o => runGenerate w o
  | .noise o => runNoise w o
  | .transpile o => runTranspile w o
  | .stats o => runStats w o
  | .version => Console.print versionText

/-- Runs a command to its end; a failure is reported on standard error. -/
def finish (calls : Console Unit) : Outcome :=
  match calls.run {} with
  | (.ok (), t) => { exit := 0, transcript := t }
  | (.error causes, t) =>
    { exit := 1
      transcript := { t with stderr := t.stderr ++ ["Error: " ++ ": ".intercalate causes] } }

/-- Runs a command line; a usage error has no outcome. -/
def run (w : World) (environment : Option String) (args : List String) : Option Outcome :=
  (readCommand environment args).map fun command => finish (runCommand w command)

/-- The files that a command may read. -/
def inputPaths : Command → List String
  | .generate o => o.experiment :: o.noise.toList
  | .noise o => [o.input, o.noise]
  | .transpile o => [o.input]
  | .stats o => [o.input]
  | .version => []

end CommandLine

end StabCircuit
