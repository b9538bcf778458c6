import StabCircuit.CommandLine.Run

/-!
# The executable

Reads the files that a command names, runs the command and carries out what its
outcome says.
-/

open StabCircuit

/-- Reads those files that can be read. -/
def readFiles (paths : List String) : IO CommandLine.Files :=
  paths.foldlM (fun files (path : String) => do
    try
      let text ← IO.FS.readFile path
      return files ++ [(path, text)]
    catch _ => return files) []

/-- The entry point. -/
def main (args : List String) : IO UInt32 := do
  let environment ← IO.getEnv "SYNDRA_NOISE"
  match CommandLine.readCommand environment args with
  | none =>
    (← IO.getStderr).putStrLn "error: invalid arguments"
    return 2
  | some command =>
    let files ← readFiles (CommandLine.inputPaths command)
    let world : CommandLine.World := ⟨fun path => files.lookup path, fun _ => true⟩
    let outcome := CommandLine.finish (CommandLine.runCommand world command)
    let stderr ← IO.getStderr
    outcome.transcript.stderr.forM stderr.putStrLn
    (← IO.getStdout).putStr outcome.transcript.stdout
    for (path, text) in outcome.transcript.written do
      try IO.FS.writeFile path text
      catch e =>
        stderr.putStrLn ("Error: Failed to write file: " ++ path ++ ": " ++ toString e)
        return 1
    return outcome.exit.toUInt32
