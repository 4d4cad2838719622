import BuildScript.Dockerfile.Command
import BuildScript.Shell.Token
import BuildScript.Compile.Outcome

/-!
# `RUN`

A command runs in the working directory and as the user of the state. One that would change the state of
the script's own shell runs in a subshell; under another user it runs in a shell of its own anyway.
-/

namespace BuildScript.State

/-- A command line that runs as the user of the state. -/
def asUser (s : State) (line : Text) : Text :=
  match s.user with
  | none => line
  | some user => "su -s /bin/sh ".toList ++ user.toShell ++ " -c ".toList ++ Shell.quote line

/-- A command line that runs in the working directory of the state. -/
def inWorkdir (s : State) (line : Text) : Text :=
  match s.workdir with
  | none => line
  | some dir => chain ["cd ".toList ++ dir.toShell, line]

/-- A command line as the script runs it. -/
def runLine (s : State) (line : Text) : Text :=
  let placed := s.inWorkdir (s.asUser line)
  if s.user.isNone && Shell.changesState line then '(' :: placed ++ [')'] else placed

/-- Compiles `RUN`. -/
def compileRun (s : State) (raw : Text) : Option Outcome :=
  let command := Command.ofText raw
  if command.isEmpty then none else some (.ofLine (s.runLine command.commandLine) s)

end BuildScript.State
