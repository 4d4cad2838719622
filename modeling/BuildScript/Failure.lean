import BuildScript.FileTree
import BuildScript.Script

/-!
# Failures

Compiling itself never fails. Reading the Dockerfile, rendering the script and writing it can.
-/

namespace BuildScript

/-- Why there is no script. -/
inductive Failure where
  | read (path : Text) (error : FileError)
  | render (error : RenderError)
  | write (path : Text) (error : FileError)
  deriving DecidableEq, Repr

namespace Failure

/-- The failure in words. -/
def message : Failure → Text
  | .read path error => "cannot read ".toList ++ path ++ ": ".toList ++ error.message
  | .render error => "cannot render script: ".toList ++ error.message
  | .write path error => "cannot write ".toList ++ path ++ ": ".toList ++ error.message

/-- The exit code of a run that fails. -/
def exitCode (_ : Failure) : Nat := 1

end Failure

/-- The Dockerfile that was read from a path. -/
def readText (path : Text) (read : Except FileError Bytes) : Except Failure Text :=
  (read.bind Bytes.text).mapError (.read path)

/-- The text of a script. -/
def Script.text (s : Script) : Except Failure Text :=
  s.render.mapError .render

end BuildScript
