import BuildScript.Json.Strings
import BuildScript.Shell.Quote
import BuildScript.Text.Blank

/-!
# Commands

The argument of `RUN`, `CMD` and `ENTRYPOINT` is either a JSON array of words or a command line for the
shell. In a command line, blanks that stand outside quotes are brought down to single spaces.
-/

namespace BuildScript

/-- The items of an argument that is a JSON array of strings. -/
def execItems? (raw : Text) : Option (List Text) :=
  Json.strings? (Text.trim raw)

/-- Where a character of a command line stands. -/
inductive Quoting where
  | none
  | single
  | double
  deriving DecidableEq, Repr

/-- Where the character after `c` stands. -/
def Quoting.after (q : Quoting) (c : Char) : Quoting :=
  match q with
  | .none => if c = '\'' then .single else if c = '"' then .double else .none
  | .single => if c = '\'' then .none else .single
  | .double => if c = '"' then .none else .double

/-- Brings unquoted blanks down to single spaces. `pending` tells that blanks were met and their space is
still to be written. -/
def collapse (q : Quoting) (pending : Bool) : Text → Text
  | [] => []
  | c :: rest =>
    if q = .none ∧ isBlank c = true then collapse q true rest
    else
      (if pending then [' '] else []) ++
        if c = '\\' ∧ q ≠ .single then
          match rest with
          | [] => [c]
          | d :: after => c :: d :: collapse q false after
        else c :: collapse (q.after c) false rest

/-- A command line without needless blanks. -/
def normalizeBlanks (line : Text) : Text :=
  collapse .none false (Text.trim line)

/-- A command, as words or as a command line. -/
inductive Command where
  | exec (words : List Text)
  | shell (line : Text)
  deriving DecidableEq, Repr

namespace Command

/-- The command that an argument holds. -/
def ofText (raw : Text) : Command :=
  match execItems? raw with
  | some words => .exec words
  | none => .shell (normalizeBlanks raw)

/-- A command as one command line for the shell. -/
def commandLine : Command → Text
  | .exec words => Shell.joinWords words
  | .shell line => line

/-- Whether there is nothing to run. -/
def isEmpty : Command → Bool
  | .exec words => words.isEmpty
  | .shell line => line.isEmpty

end Command

end BuildScript
