import BuildScript.CommandLine.Diagnostic
import BuildScript.Failure
import BuildScript.Compile

/-!
# Running the command

The command reads its Dockerfile, compiles it and writes the script; nothing is written before the
script has its text. What it needs of the system is a `Host`, so that it runs in the same way on a real
system and on one that is a value.
-/

namespace BuildScript

namespace State

/-- The paths of the files that an instruction would embed. -/
def embedPaths (s : State) (o : Options) (i : Instruction) : List Text :=
  let sources (kind : Word → Source) : List Text :=
    match s.delivery? i.arguments with
    | some t => ((t.sources.map kind).filterMap Source.copied?).filterMap (embedPath? o)
    | none => []
  match i.keyword with
  | .copy => sources .copied
  | .add => sources .ofAdd
  | _ => []

end State

/-- The paths of the files that the instructions after a state would embed. -/
def embedPathsFrom (o : Options) (s : State) : List Instruction → List Text
  | [] => []
  | i :: rest =>
    s.embedPaths o i ++
      embedPathsFrom o (Step.ofInstruction o (fun _ => none) s i).state rest

/-- The paths of the files that compiling would embed. -/
def embedPaths (o : Options) (input : Text) : List Text :=
  embedPathsFrom o (.initial (escapeOf input)) (instructions input)

namespace CommandLine

/-- Why a run of the command fails. -/
inductive RunError where
  /-- There is no script, or its file cannot be written. -/
  | failure (e : Failure)
  /-- Standard output cannot be written. -/
  | print (error : FileError)
  deriving DecidableEq, Repr

namespace RunError

/-- The error in words. -/
def message : RunError → Text
  | .failure e => e.message
  | .print error => "cannot write to stdout: ".toList ++ error.message

@[simp] theorem message_failure (e : Failure) : (failure e).message = e.message := rfl

/-- The exit code of a run that fails. -/
def exitCode : RunError → Nat
  | .failure e => e.exitCode
  | .print _ => 1

end RunError

/-- What the command needs of the system that it runs on. -/
structure Host (m : Type → Type) where
  readFile : Text → m (Except FileError Bytes)
  readInput : m (Except FileError Bytes)
  /-- Writes a file that can be executed. -/
  writeFile : Text → Text → m (Except FileError Unit)
  /-- The absolute path of a directory. -/
  canonical? : Text → m (Option Text)
  lookupVariable : Text → m (Option Text)
  /-- Whether diagnostics go to a terminal. -/
  isTerminal : m Bool
  printOutput : Text → m (Except FileError Unit)
  printError : Text → m Unit
  /-- How the bytes of a file are packed, so that a script can unpack them. -/
  packing : m (Bytes → Bytes)

/-- The path that stands for standard input. -/
def standardInput : Text := ['-']

/-- The name and version of the command. -/
def versionText : Text := "docker2sh 0.1.0\n".toList

/-- How the command is used. -/
def helpText : Text :=
  ("Translate a Dockerfile into a POSIX shell script that performs the same build steps outside " ++
    "a container.\n\nUsage: docker2sh [OPTIONS] <DOCKERFILE>\n\n" ++
    "Arguments:\n  <DOCKERFILE>  Dockerfile to translate; `-` reads standard input\n\n" ++
    "Options:\n" ++
    "  -o, --output <FILE>  Write the script to this file (made executable) instead of stdout\n" ++
    "  -j, --json           Print the parsed instructions as JSON instead of translating\n" ++
    "      --shell <PATH>   Interpreter for the shebang line\n" ++
    "      --context <DIR>  Build context for relative COPY/ADD sources\n" ++
    "      --embed          Inline copied files into the script\n" ++
    "  -v, --verbose        Log a summary of skipped instructions to stderr\n" ++
    "      --color <MODE>   Colorize stderr diagnostics: auto|always|never\n" ++
    "  -h, --help           Print help\n" ++
    "  -V, --version        Print version\n").toList

/-- The name of a Dockerfile in the comment of its script. -/
def sourceName (path : Text) : Text :=
  if path = standardInput then "<stdin>".toList else path

/-- What was written and skipped. -/
def summary (s : Script) : Text :=
  Text.ofNat s.statements.length ++ " statement(s) emitted, ".toList ++ Text.ofNat s.skipped ++
    " instruction(s) skipped".toList

/-- The interpreter that a variable chooses, if it holds more than blanks. -/
def shellOf? (fromEnv : Option Text) : Option Text :=
  (fromEnv.map Text.trim).filter (· ≠ [])

section

variable {m : Type → Type} [Monad m] (host : Host m)

/-- Prints a diagnostic. -/
def report (a : Arguments) (tone : Tone) (message : Text) : m Unit := do
  let noColor ← host.lookupVariable "NO_COLOR".toList
  let fromEnv ← host.lookupVariable "DOCKER2SH_COLOR".toList
  let coloured ←
    match colorMode noColor.isSome a.color fromEnv with
    | .always => pure true
    | .never => pure false
    | .auto => host.isTerminal
  host.printError (diagnostic tone coloured message ++ ['\n'])

/-- Reads the Dockerfile. -/
def readInput (path : Text) : m (Except Failure Text) := do
  let read ← if path = standardInput then host.readInput else host.readFile path
  pure (readText path read)

/-- The build context: the one that was chosen, or the directory of the Dockerfile. Standard input has
none. -/
def contextDir (a : Arguments) : m (Option Text) :=
  match a.context with
  | some dir => pure (some dir)
  | none =>
    if a.dockerfile = standardInput then pure none
    else host.canonical? (Path.directory a.dockerfile)

/-- What is chosen for the script. -/
def options (a : Arguments) : m Options := do
  let dir ← contextDir host a
  let fromEnv ← host.lookupVariable "DOCKER2SH_SHELL".toList
  let pack ← host.packing
  pure
    { shell := a.shell.getD ((shellOf? fromEnv).getD defaultShell)
      contextDir := dir
      sourceName := some (sourceName a.dockerfile)
      embed := a.embed
      pack := pack }

/-- The files at some paths, those of them that can be read. -/
def readFiles (paths : List Text) : m FileView := do
  let files ← paths.mapM fun path => do
    let read ← host.readFile path
    pure (path, read)
  pure fun path => (files.lookup path).bind Except.toOption

/-- Writes the result where the arguments say. -/
def writeOutput (a : Arguments) (text : Text) : m (Except RunError Unit) :=
  match a.output with
  | none => do
    let printed ← host.printOutput text
    pure (printed.mapError .print)
  | some path => do
    let written ← host.writeFile path text
    pure (written.mapError fun error => .failure (.write path error))

/-- Compiles the Dockerfile, or lists its instructions. -/
def execute (a : Arguments) : m (Except RunError Unit) := do
  match ← readInput host a.dockerfile with
  | .error e => pure (.error (.failure e))
  | .ok input =>
    if a.json then
      writeOutput host a (Instruction.listJson (instructions input) ++ ['\n'])
    else
      let o ← options host a
      let files ← readFiles host (embedPaths o input)
      let script := compile o files input
      match script.text with
      | .error e => pure (.error (.failure e))
      | .ok text =>
        match ← writeOutput host a text with
        | .error e => pure (.error e)
        | .ok () =>
          if a.verbose then
            report host a (if 0 < script.skipped then .warning else .info) (summary script)
          pure (.ok ())

/-- Runs the command. The answer is its exit code. Whether the help is read does not matter to it. -/
def run (args : List Text) : m Nat :=
  match readArguments args with
  | .error e => do
    host.printError ("error: ".toList ++ e.message ++
      "\n\nUsage: docker2sh [OPTIONS] <DOCKERFILE>\n\nFor more information, try '--help'.\n".toList)
    pure 2
  | .ok .help => do
    let _ ← host.printOutput helpText
    pure 0
  | .ok .version => do
    let _ ← host.printOutput versionText
    pure 0
  | .ok (.run a) => do
    match ← execute host a with
    | .ok () => pure 0
    | .error e =>
      report host a .error e.message
      pure e.exitCode

end

end CommandLine

end BuildScript
