import BuildScript.Shell.Name
import BuildScript.Text.Blank

/-!
# Tokens of a command line

A command line is read as words and control operators. Quotes group, a backslash protects the next
character, and the tokens carry the text without them. The reading goes in two steps: `scan` tells for
each stretch of the line whether it belongs to a word, separates words, or is an operator, and `tokens`
puts the stretches of a word together. The first step carries nothing with it but the open quote.

`changesState` says whether a line has a command that acts on the shell that runs it.
-/

namespace BuildScript.Shell

/-- A word of a command line, without its quotes, or a control operator. -/
inductive Token where
  | word (t : Text)
  | op
  deriving DecidableEq, Repr

/-- The quotes that are open at a place of a line. -/
inductive Quotes where
  | none
  | single
  | double
  deriving DecidableEq, Repr

/-- What a stretch of a command line contributes: characters to the word it stands in, the end of a word,
or an operator. -/
inductive Mark where
  | part (t : Text)
  | blank
  | op
  deriving DecidableEq, Repr

/-- Whether a character outside quotes is a control operator. -/
def isOperator (c : Char) : Bool :=
  c == ';' || c == '&' || c == '|' || c == '(' || c == ')' || c == '\n'

/-- What a character that is no quote and no backslash is outside quotes. -/
def Mark.ofBare (c : Char) : Mark :=
  if isOperator c then .op else if isBlank c then .blank else .part [c]

/-- Reads a line from a place where the given quotes are open. A quote that opens or closes contributes
an empty stretch, so that a pair of quotes is a word; a backslash at the end contributes one as well,
except between double quotes, where the word is there already. -/
def scan : Quotes → Text → List Mark
  | _, [] => []
  | .none, '\\' :: c :: rest => .part [c] :: scan .none rest
  | .none, '\\' :: [] => [.part []]
  | .none, '\'' :: rest => .part [] :: scan .single rest
  | .none, '"' :: rest => .part [] :: scan .double rest
  | .none, c :: rest => Mark.ofBare c :: scan .none rest
  | .single, '\'' :: rest => .part [] :: scan .none rest
  | .single, c :: rest => .part [c] :: scan .single rest
  | .double, '\\' :: c :: rest => .part [c] :: scan .double rest
  | .double, '\\' :: [] => []
  | .double, '"' :: rest => .part [] :: scan .none rest
  | .double, c :: rest => .part [c] :: scan .double rest

/-- The tokens of a scanned line: the word that the line begins with, if it begins with one, and the
others. -/
def collect : List Mark → Option Text × List Token
  | [] => (none, [])
  | .part t :: marks =>
    let (word, others) := collect marks
    (some (t ++ word.getD []), others)
  | .blank :: marks =>
    let (word, others) := collect marks
    (none, word.toList.map .word ++ others)
  | .op :: marks =>
    let (word, others) := collect marks
    (none, .op :: word.toList.map .word ++ others)

/-- The words and operators of a command line. -/
def tokens (line : Text) : List Token :=
  let (word, others) := collect (scan .none line)
  word.toList.map .word ++ others

/-- Commands that act on the shell that runs them, so that their effect outlives them. -/
def lastingCommands : List Text :=
  ["cd", "pushd", "popd", "export", "unset", "umask", "set", "alias", "unalias", "source", ".",
    "exec", "readonly", "trap", "ulimit", "shift", "local", "declare", "typeset", "eval", "shopt",
    "hash"].map String.toList

/-- Words that may stand before the name of a command. -/
def introducers : List Text :=
  ["if", "then", "else", "elif", "do", "while", "until", "!", "\x7b", "time"].map String.toList

/-- Whether a word assigns to a variable. -/
def isAssignment (word : Text) : Bool :=
  match Text.cutAt '=' word with
  | some (name, _) => isName name
  | none => false

/-- Whether tokens hold a command of `lastingCommands`, or assignments without a command. `atStart` tells
that no command name was met since the last operator, `assigned` that an assignment was. -/
def changesStateFrom (atStart assigned : Bool) : List Token → Bool
  | [] => assigned
  | .op :: rest => assigned || changesStateFrom true assigned rest
  | .word w :: rest =>
    if atStart then
      if introducers.contains w then changesStateFrom true assigned rest
      else if isAssignment w then changesStateFrom true true rest
      else if lastingCommands.contains w then true
      else changesStateFrom false false rest
    else changesStateFrom atStart assigned rest

/-- Whether a command line, run by the shell itself, leaves the shell's own state changed. -/
def changesState (line : Text) : Bool :=
  changesStateFrom true false (tokens line)

end BuildScript.Shell
