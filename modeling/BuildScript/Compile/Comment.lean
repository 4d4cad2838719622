import BuildScript.Dockerfile.Command
import BuildScript.Dockerfile.Instruction
import BuildScript.Compile.Outcome

/-!
# Instructions that only leave a comment

`FROM`, `LABEL`, `MAINTAINER` and `EXPOSE` say something about an image and do nothing outside a
container. `CMD` and `ENTRYPOINT` say what to start once all is set up; the comment shows the command.
-/

namespace BuildScript.State

/-- A comment. -/
def comment (t : Text) : Text := '#' :: ' ' :: t

/-- Compiles `FROM`. -/
def compileFrom (s : State) (raw : Text) : Option Outcome :=
  let image := normalizeBlanks raw
  if image = [] then none
  else
    some (.ofLine
      (comment ("FROM ".toList ++ image ++ " (base image is not materialized)".toList)) s)

/-- Compiles `LABEL` and `MAINTAINER`. -/
def compileMetadata (s : State) (keyword : Keyword) (raw : Text) : Outcome :=
  .ofLine (comment (keyword.name ++ ' ' :: normalizeBlanks raw)) s

/-- Compiles `EXPOSE`. -/
def compileExpose (s : State) (raw : Text) : Outcome :=
  .ofLine
    (comment ("EXPOSE ".toList ++ normalizeBlanks raw ++ " (no-op outside a container)".toList)) s

/-- Compiles `CMD` and `ENTRYPOINT`. -/
def compileStart (s : State) (keyword : Keyword) (raw : Text) : Option Outcome :=
  let command := Command.ofText raw
  if command.isEmpty then none
  else
    some (.ofLine
      (comment (keyword.name ++ " (run manually): ".toList ++ command.commandLine)) s)

end BuildScript.State
