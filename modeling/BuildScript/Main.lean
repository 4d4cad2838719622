import BuildScript.CommandLine.Run

/-!
# The command

The real system as a `Host`, and the entry point. Nothing is decided here.
-/

namespace BuildScript.CommandLine

/-- Whether a code that the system gave is `code`. Some of its calls negate their codes. -/
def isCode (given code : UInt32) : Bool := given == code || given == 0 - code

/-- An error of the system as an error of a file. -/
def fileError (e : IO.Error) : FileError :=
  match e with
  | .noFileOrDirectory _ _ _ | .noSuchThing _ _ _ => .notFound
  | .inappropriateType _ code _ =>
    if isCode code 20 then .notADirectory
    else if isCode code 21 then .isADirectory
    else .other (toString e).toList
  | .permissionDenied _ _ _ => .other "Permission denied (os error 13)".toList
  | other => .other (toString other).toList

/-- Runs an action on a file. -/
def attempt {α : Type} (action : IO α) : IO (Except FileError α) := do
  match ← action.toBaseIO with
  | .ok a => pure (.ok a)
  | .error e => pure (.error (fileError e))

/-- The system that the command is started on. -/
def system : Host IO where
  readFile path := attempt do
    let bytes ← IO.FS.readBinFile (String.ofList path)
    pure bytes.toList
  readInput := attempt do
    let stdin ← IO.getStdin
    let mut bytes := ByteArray.empty
    let mut chunk ← stdin.read 65536
    while !chunk.isEmpty do
      bytes := bytes ++ chunk
      chunk ← stdin.read 65536
    pure bytes.toList
  writeFile path text := attempt do
    IO.FS.writeFile (String.ofList path) (String.ofList text)
    IO.setAccessRights (String.ofList path)
      { user := { read := true, write := true, execution := true }
        group := { read := true, execution := true }
        other := { read := true, execution := true } }
  canonical? path := do
    match ← (IO.FS.realPath (String.ofList path)).toBaseIO with
    | .ok dir => pure (some dir.toString.toList)
    | .error _ => pure none
  lookupVariable name := do
    let value ← IO.getEnv (String.ofList name)
    pure (value.map String.toList)
  isTerminal := do (← IO.getStderr).isTty
  printOutput text := attempt do
    let stdout ← IO.getStdout
    stdout.putStr (String.ofList text)
    stdout.flush
  printError text := do (← IO.getStderr).putStr (String.ofList text)
  packing := pure Gzip.pack

end BuildScript.CommandLine

/-- Compiles a Dockerfile to a shell script. -/
def main (args : List String) : IO UInt32 := do
  let code ← BuildScript.CommandLine.run BuildScript.CommandLine.system (args.map String.toList)
  pure code.toUInt32
