import BuildScript.Text.Blank

/-!
# Scripts

A script is a list of lines in two parts: a prologue, which sets the shell up, and the statements, in the
order of the instructions that they come from. Lines are written as they are. A line that holds a line
feed or a NUL would not be one line of the file, so a script with such a line is not rendered.
-/

namespace BuildScript

/-- The interpreter of a script unless another is chosen. -/
def defaultShell : Text := "/bin/sh".toList

/-- A shell script. -/
structure Script where
  prologue : List Text
  statements : List Text
  /-- How many instructions are left as comments because nothing is done for them. -/
  skipped : Nat
  deriving DecidableEq, Repr

/-- Why a script has no text: the line with this number, counted from zero, is not one line. -/
structure RenderError where
  index : Nat
  deriving DecidableEq, Repr

namespace RenderError

/-- The error in words. -/
def message (e : RenderError) : Text :=
  "script line ".toList ++ Text.ofNat e.index ++
    " contains a newline or NUL; use atomic lines".toList

end RenderError

namespace Script

/-- A script without statements for the interpreter `shell`. -/
def new (shell : Text) : Script :=
  { prologue := ['#' :: '!' :: shell, "set -e".toList]
    statements := []
    skipped := 0 }

/-- Adds a line to the prologue. -/
def addPrologue (line : Text) (s : Script) : Script :=
  { s with prologue := s.prologue ++ [line] }

/-- Names the Dockerfile in the prologue. -/
def naming (name : Text) (s : Script) : Script :=
  s.addPrologue ("# translated from ".toList ++ name)

/-- Adds statements. -/
def extend (lines : List Text) (s : Script) : Script :=
  { s with statements := s.statements ++ lines }

/-- Adds one statement. -/
def push (line : Text) (s : Script) : Script := s.extend [line]

/-- All lines in order. -/
def lines (s : Script) : List Text := s.prologue ++ s.statements

/-- Whether a statement is a comment. -/
def isComment (line : Text) : Bool :=
  (Text.trimStart line).head? == some '#'

/-- The statements that are no comments. -/
def executed (s : Script) : List Text :=
  s.statements.filter (!isComment ·)

/-- Whether a text would not be one line of a file. -/
def isBroken (line : Text) : Bool :=
  line.any fun c => c == '\n' || c == '\x00'

/-- The text of a script: its lines, each ended by a line feed. -/
def render (s : Script) : Except RenderError Text :=
  match s.lines.findIdx? isBroken with
  | some i => .error ⟨i⟩
  | none => .ok (s.lines.flatMap (· ++ ['\n']))

end Script

end BuildScript
