import BuildScript.Text.Blank
import BuildScript.Text.Line

/-!
# The escape character

A Dockerfile may choose its escape character by a directive: a comment of the form `# escape=…` among the
directives at its top. Directives are comments of the form `# key=value`; the first line that is none
ends them. Only the backslash and the backquote can be chosen.
-/

namespace BuildScript

/-- The escape character of a Dockerfile that chooses none. -/
def defaultEscape : Char := '\\'

/-- Key and value of a line that is a directive, without the blanks around them. -/
def directive? (line : Text) : Option (Text × Text) :=
  match Text.trim line with
  | '#' :: body =>
    match Text.cutAt '=' body with
    | some (key, value) =>
      let key := Text.trim key
      if !key.isEmpty && key.all Char.isAlphanum then some (key, Text.trim value) else none
    | none => none
  | _ => none

/-- The escape character that the directives at the top of some lines choose. -/
def escapeOfLines : List Text → Char
  | [] => defaultEscape
  | line :: rest =>
    match directive? line with
    | none => defaultEscape
    | some (key, value) =>
      if Text.lower key = "escape".toList then
        if value = ['\x60'] then '\x60' else defaultEscape
      else escapeOfLines rest

/-- The escape character of a Dockerfile. -/
def escapeOf (input : Text) : Char :=
  escapeOfLines (Text.lines input)

end BuildScript
