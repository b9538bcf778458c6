import StabCircuit.Text.Blank
import StabCircuit.Text.Integer

/-!
# Command-line options

Arguments are a command, options that take a value (`--name value`,
`--name=value`, `-n value`, `-nvalue`) and flags.  An unknown option, a missing
value, a value that looks like an option, a repeated option or a number out of
range is a usage error.
-/

namespace StabCircuit

namespace CommandLine

/-- An option of a command. -/
structure OptionSpec where
  /-- The name after two dashes. -/
  long : String
  /-- Another name after two dashes. -/
  other : Option String := none
  /-- The letter after one dash. -/
  short : Option Char := none
  /-- Whether the option takes a value. -/
  takesValue : Bool := true
  /-- Whether the option may be repeated. -/
  repeatable : Bool := false

/-- The flag for more log output, which every command takes. -/
def verboseOption : OptionSpec :=
  { long := "verbose", short := some 'v', takesValue := false, repeatable := true }

/-- The value or flag options given, by long name and in order. -/
abbrev Given : Type := List (String × String)

/-- The options of a list that a long name denotes. -/
def findLong? (specs : List OptionSpec) (name : String) : Option OptionSpec :=
  specs.find? fun s => s.long == name || s.other == some name

/-- The options of a list that a letter denotes. -/
def findShort? (specs : List OptionSpec) (letter : Char) : Option OptionSpec :=
  specs.find? fun s => s.short == some letter

/-- What an argument contributes: options given, and an option that waits for its value. -/
structure Scan where
  /-- The options given so far, in reverse order. -/
  given : Given := []
  /-- The option whose value comes next. -/
  waiting : Option OptionSpec := none

/-- Takes in the letters after a single dash: flags, and at the end an option with its value or
waiting for it. -/
def scanLetters (specs : List OptionSpec) (given : Given) : List Char → Option Scan
  | [] => some { given }
  | c :: rest =>
    match findShort? specs c with
    | none => none
    | some s =>
      if !s.takesValue then scanLetters specs ((s.long, "") :: given) rest
      else
        match rest with
        | [] => some { given, waiting := some s }
        | '=' :: value => some { given := (s.long, String.ofList value) :: given }
        | value => some { given := (s.long, String.ofList value) :: given }

/-- Takes in a long name, with its value after an equals sign or waiting for it. -/
def scanLong (specs : List OptionSpec) (given : Given) (text : List Char) : Option Scan :=
  let name := String.ofList (text.takeWhile (· != '='))
  match findLong? specs name, text.dropWhile (· != '=') with
  | none, _ => none
  | some s, [] =>
    if s.takesValue then some { given, waiting := some s }
    else some { given := (s.long, "") :: given }
  | some s, _ :: value =>
    if s.takesValue then some { given := (s.long, String.ofList value) :: given } else none

/-- Takes in arguments one after another; `none` is a usage error. -/
def scanAll (specs : List OptionSpec) (state : Scan) : List String → Option Given
  | [] => if state.waiting.isSome then none else some state.given.reverse
  | arg :: rest =>
    match arg.toList, state.waiting with
    | ['-', '-'], none => if rest.isEmpty then some state.given.reverse else none
    | '-' :: '-' :: _ :: _, some _ => none
    | '-' :: '-' :: name, none =>
      (scanLong specs state.given name).bind fun state => scanAll specs state rest
    | '-' :: _ :: _, some _ => none
    | '-' :: c :: letters, none =>
      (scanLetters specs state.given (c :: letters)).bind fun state => scanAll specs state rest
    | _, some s => scanAll specs { given := (s.long, arg) :: state.given } rest
    | _, none => none

/-- Whether no option is repeated that may not be. -/
def isUnrepeated (specs : List OptionSpec) (given : Given) : Bool :=
  specs.all fun s => s.repeatable || (given.filter fun g => g.1 == s.long).length ≤ 1

/-- The options given in the arguments of a command; `none` is a usage error. -/
def readOptions (specs : List OptionSpec) (args : List String) : Option Given := do
  let specs := verboseOption :: specs
  let given ← scanAll specs {} args
  if isUnrepeated specs given then some given else none

/-- Splits arguments at the command: before it only the flag for more log output may stand. -/
def splitCommand : List String → Option (String × List String)
  | [] => none
  | arg :: rest =>
    match arg.toList with
    | '-' :: '-' :: name =>
      if String.ofList name == verboseOption.long then splitCommand rest else none
    | '-' :: c :: letters => if (c :: letters).all (· == 'v') then splitCommand rest else none
    | _ => some (arg, rest)

/-- An option's value, if given. -/
def value? (given : Given) (name : String) : Option String := given.lookup name

/-- Whether a flag is given. -/
def hasFlag (given : Given) (name : String) : Bool := given.any fun g => g.1 == name

/-- Reads an optional value; a value that cannot be read is a usage error. -/
def readValue? {α : Type} (read : List Char → Option α) : Option String → Option (Option α)
  | none => some none
  | some text => (read text.toList).map some

/-- Reads a number of a 64-bit range and then requires it to be below `bound`. -/
def smallNumber? (bound : Nat) (text : List Char) : Option Nat :=
  (Text.intWithin? Text.halfLong text).bind fun n =>
    if 0 ≤ n ∧ n < bound then some n.toNat else none

/-- Reads numbers separated by commas. -/
def numberList? (text : List Char) : Option (List Nat) :=
  (Text.pieces (· == ',') text).mapM (smallNumber? Text.wordSize)

/-- The arguments of `generate`. -/
structure GenerateOptions where
  /-- The file that describes the experiment. -/
  experiment : String
  /-- The noise of a round. -/
  noise : Option String
  /-- The number of rounds. -/
  rounds : Option Nat
  /-- The kind of experiment. -/
  kind : String
  /-- How checks are measured. -/
  style : Option String
  /-- The file to write. -/
  output : Option String

/-- The arguments of `noise`. -/
structure NoiseOptions where
  /-- The circuit file. -/
  input : String
  /-- The file to write. -/
  output : Option String
  /-- The noise model. -/
  noise : String
  /-- Qubits without noise, in the order given. -/
  immune : List Nat
  /-- Whether operations without a rule are errors. -/
  strict : Bool

/-- The arguments of `transpile`. -/
structure TranspileOptions where
  /-- The circuit file. -/
  input : String
  /-- The file to write. -/
  output : Option String
  /-- Whether to translate to Z-basis operations. -/
  zBasis : Bool
  /-- The optimization level. -/
  level : Nat

/-- The arguments of `stats`. -/
structure StatsOptions where
  /-- The circuit file. -/
  input : String
  /-- The output format. -/
  format : String

/-- A command with its arguments. -/
inductive Command where
  /-- Generates a memory experiment. -/
  | generate (options : GenerateOptions)
  /-- Adds noise to a circuit. -/
  | noise (options : NoiseOptions)
  /-- Translates and optimizes a circuit. -/
  | transpile (options : TranspileOptions)
  /-- Shows statistics of a circuit. -/
  | stats (options : StatsOptions)
  /-- Shows version information. -/
  | version

/-- The options that name the input and output files. -/
def inputOption : OptionSpec := { long := "input", short := some 'i' }

/-- The option that names the output file. -/
def outputOption : OptionSpec := { long := "output", short := some 'o' }

/-- The option that names the noise. -/
def noiseOption : OptionSpec := { long := "noise", short := some 'n' }

/-- Reads the arguments of `generate`. -/
def readGenerate (args : List String) : Option Command := do
  let given ← readOptions
    [{ long := "experiment", other := some "patch", short := some 'e' }, noiseOption,
      { long := "rounds", short := some 'r' }, { long := "kind", short := some 'k' },
      { long := "style" }, outputOption] args
  return .generate
    { experiment := ← value? given "experiment"
      noise := value? given "noise"
      rounds := ← readValue? (Text.natBelow? Text.longSize) (value? given "rounds")
      kind := (value? given "kind").getD "phenomenological"
      style := value? given "style"
      output := value? given "output" }

/-- Reads the arguments of `noise`; the model may come from the environment. -/
def readNoise (environment : Option String) (args : List String) : Option Command := do
  let given ← readOptions
    [inputOption, outputOption, noiseOption, { long := "immune", repeatable := true },
      { long := "strict", takesValue := false }] args
  let immune ← (given.filter fun g => g.1 == "immune").mapM fun g => numberList? g.2.toList
  return .noise
    { input := ← value? given "input"
      output := value? given "output"
      noise := ← (value? given "noise").or environment
      immune := immune.flatten
      strict := hasFlag given "strict" }

/-- Reads the arguments of `transpile`. -/
def readTranspile (args : List String) : Option Command := do
  let given ← readOptions
    [inputOption, outputOption, { long := "z-basis", takesValue := false },
      { long := "optimization-level" }] args
  let level ← readValue? (smallNumber? 256) (value? given "optimization-level")
  return .transpile
    { input := ← value? given "input"
      output := value? given "output"
      zBasis := hasFlag given "z-basis"
      level := level.getD 1 }

/-- Reads the arguments of `stats`. -/
def readStats (args : List String) : Option Command := do
  let given ← readOptions [inputOption, { long := "format", short := some 'f' }] args
  return .stats
    { input := ← value? given "input"
      format := (value? given "format").getD "table" }

/-- Reads a whole command line; `none` is a usage error. -/
def readCommand (environment : Option String) (args : List String) : Option Command := do
  match ← splitCommand args with
  | ("generate", args) => readGenerate args
  | ("noise", args) => readNoise environment args
  | ("transpile", args) => readTranspile args
  | ("stats", args) => readStats args
  | ("version", args) => (readOptions [] args).map fun _ => .version
  | _ => none

end CommandLine

end StabCircuit
