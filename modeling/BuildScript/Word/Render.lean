import BuildScript.Shell.Quote
import BuildScript.Word.Basic

/-!
# Words as shell text

A word is written as one shell word: literal stretches are quoted, references stay live between double
quotes. Inside double quotes (`toDoubleQuoted`) literal text is escaped instead, also in the words of
modifiers.
-/

namespace BuildScript

/-- The operator that a modifier is written with. -/
def Choice.operator : Choice → Text
  | .default => [':', '-']
  | .alternate => [':', '+']

/-- A live reference to a variable. -/
def Shell.reference (name modifier : Text) : Text :=
  '$' :: '{' :: name ++ modifier ++ ['}']

namespace Word

/-- A word as text between double quotes. -/
def toDoubleQuoted : Word → Text
  | .nil => []
  | .char c rest => Shell.escapeDouble [c] ++ toDoubleQuoted rest
  | .var name rest => Shell.reference name [] ++ toDoubleQuoted rest
  | .cond name choice arg rest =>
    Shell.reference name (choice.operator ++ toDoubleQuoted arg) ++ toDoubleQuoted rest

/-- A stretch of a word, with `quote` for literal text. -/
def Segment.render (quote : Text → Text) : Segment → Text
  | .literal t => quote t
  | .var name => '"' :: Shell.reference name [] ++ ['"']
  | .cond name choice arg =>
    '"' :: Shell.reference name (choice.operator ++ arg.toDoubleQuoted) ++ ['"']

/-- A word as one shell word, with `quote` for literal text. -/
def render (quote : Text → Text) (w : Word) : Text :=
  if w.isEmpty then ['\'', '\''] else w.segments.flatMap (Segment.render quote)

/-- A word as one shell word; its references stay live. -/
def toShell (w : Word) : Text := w.render Shell.quote

/-- A word as one shell word; its references and its pattern characters stay live. -/
def toShellGlob (w : Word) : Text := w.render Shell.quoteGlob

end Word

end BuildScript
