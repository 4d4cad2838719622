import BuildScript.CommandLine.Run

/-!
# A system as a value

All that the command can read and write, so that what a run does can be stated: files, standard input,
variables, and what was printed. What the system does for the command is part of it too: it packs files,
and it may refuse to print.
-/

namespace BuildScript.CommandLine

/-- A system that the command runs on. Diagnostics do not go to a terminal. -/
structure World where
  tree : FileTree
  /-- The current directory. -/
  cwd : Place
  input : Bytes
  env : List (Text × Text)
  output : Text
  errors : Text
  /-- Why standard output cannot be written, if it cannot. -/
  outputError : Option FileError := none
  /-- How files are packed. -/
  pack : Bytes → Bytes := Gzip.pack

namespace World

/-- Files that the command writes can be executed by all. -/
def scriptMode : Nat := 0o755

/-- The system as the command uses it. -/
def host : Host (StateM World) where
  readFile path := do
    let w ← get
    pure (w.tree.read w.cwd path)
  readInput := do
    let w ← get
    pure (.ok w.input)
  writeFile path text := do
    let w ← get
    match w.tree.write w.cwd path (Bytes.ofText text) scriptMode with
    | .error e => pure (.error e)
    | .ok tree =>
      set { w with tree := tree }
      pure (.ok ())
  canonical? path := do
    let w ← get
    pure (w.tree.canonical? w.cwd path)
  lookupVariable name := do
    let w ← get
    pure (w.env.lookup name)
  isTerminal := pure false
  printOutput text := do
    let w ← get
    match w.outputError with
    | some e => pure (.error e)
    | none =>
      set { w with output := w.output ++ text }
      pure (.ok ())
  printError text := modify fun w => { w with errors := w.errors ++ text }
  packing := do
    let w ← get
    pure w.pack

/-- Runs the command in a system. The answer is its exit code and the system after it. -/
def run (args : List Text) (w : World) : Nat × World :=
  (CommandLine.run host args).run w

end World

end BuildScript.CommandLine
