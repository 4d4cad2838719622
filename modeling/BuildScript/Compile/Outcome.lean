import BuildScript.Bytes.Gzip
import BuildScript.Script
import BuildScript.Compile.State

/-!
# Outcomes

What an instruction comes to: lines of the script and a new state. An instruction that is not understood
has no outcome, and then the state stays as it was.
-/

namespace BuildScript

/-- What is chosen when a Dockerfile is compiled. -/
structure Options where
  /-- The interpreter of the script. -/
  shell : Text := defaultShell
  /-- The directory that relative sources of `COPY` and `ADD` are in. Without one they are looked for where
  the script is started. -/
  contextDir : Option Text := none
  /-- The name of the Dockerfile, for a comment in the script. -/
  sourceName : Option Text := none
  /-- Whether files of the build context are written into the script. -/
  embed : Bool := false
  /-- How the bytes of such a file are packed, so that the script can unpack them. -/
  pack : Bytes → Bytes := Gzip.pack

/-- Lines of the script, and the state after them. -/
structure Outcome where
  lines : List Text
  state : State
  deriving Repr

namespace Outcome

/-- One line that leaves the state as it is. -/
def ofLine (line : Text) (s : State) : Outcome := ⟨[line], s⟩

end Outcome

/-- Joins commands so that each runs only if those before it succeeded. -/
def chain (commands : List Text) : Text := Text.join " && ".toList commands

end BuildScript
