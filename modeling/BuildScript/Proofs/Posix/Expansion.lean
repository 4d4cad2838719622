import BuildScript.Proofs.Posix.Reader
import BuildScript.Shell.Quote

/-!
# What the words of a script become

A shell expands the words of a command before it runs it: a tilde becomes a directory, a parameter its
value, a command its output. What comes out of an expansion that is not quoted is split at the characters
of `IFS`, what then holds a pattern character that is not quoted is replaced by the files it matches, and
quotes are removed. The words that this leaves are the fields of the command.

What a shell finds outside the script (home directories, files, what commands write) is a `Machine`.
-/

namespace BuildScript

/-- The variables of a shell: the values of those that are set. -/
abbrev Vars := Text → Option Text

namespace Vars

/-- The value of a variable; one that is not set has the empty text. -/
def text (ρ : Vars) (name : Text) : Text := (ρ name).getD []

/-- Sets a variable. -/
def set (ρ : Vars) (name value : Text) : Vars := fun other =>
  if other = name then some value else ρ other

theorem set_self (ρ : Vars) (name value : Text) : (ρ.set name value) name = some value := by
  simp [set]

theorem set_of_ne (ρ : Vars) {name other : Text} (value : Text) (h : other ≠ name) :
    (ρ.set name value) other = ρ other := by
  simp [set, h]

end Vars

namespace Posix

/-- A character of a word after expansion: quoted, standing in the script, or brought in by an expansion
that is not quoted. `none` is the trace of a quote, which keeps an empty word. -/
inductive Atom where
  | none
  | quoted (c : Char)
  | bare (c : Char)
  | result (c : Char)
  deriving DecidableEq, Repr

namespace Atom

/-- The text of an atom once quotes are removed. -/
def text : Atom → Text
  | .none => []
  | .quoted c | .bare c | .result c => [c]

/-- The pattern character that an atom is. -/
def isLive : Atom → Bool
  | .bare c | .result c => Shell.isGlob c
  | _ => false

/-- A value that an expansion brings in. -/
def ofValue (quoted : Bool) (value : Text) : List Atom :=
  value.map (if quoted then .quoted else .result)

end Atom

/-- What a shell finds outside the script. -/
structure Machine where
  /-- The home directory of a user; that of the empty name is the one of the user who runs the script. -/
  home : Text → Text
  /-- The files that a pattern matches. -/
  files : List Atom → List Text
  /-- What a command writes. -/
  output : Vars → List Token → Text
  /-- What a command between backquotes writes. -/
  outputOf : Vars → Text → Text

/-- A machine on which all patterns match one file and nothing else is found. -/
def Machine.bare (file : Text) : Machine :=
  { home := fun _ => [], files := fun _ => [file], output := fun _ _ => [], outputOf := fun _ _ => [] }

variable (m : Machine) (ρ : Vars)

mutual

/-- The atoms of a mark. Of the operators in braces, those that take an empty value for a missing one are
covered. -/
def Mark.atoms? (m : Machine) (ρ : Vars) : Mark → Option (List Atom)
  | .char true c => some [.quoted c]
  | .char false c => some [.bare c]
  | .quotes => some [.none]
  | .param quoted name [] [] => some (Atom.ofValue quoted (ρ.text name))
  | .param quoted name [':', '-'] arg =>
    if ρ.text name = [] then atoms? m ρ arg else some (Atom.ofValue quoted (ρ.text name))
  | .param _ name [':', '+'] arg => if ρ.text name = [] then some [] else atoms? m ρ arg
  | .param _ _ _ _ => none
  | .command quoted body => some (Atom.ofValue quoted (m.output ρ (tokens body)))
  | .backquoted quoted body => some (Atom.ofValue quoted (m.outputOf ρ body))
  | .blank | .op _ => none

/-- The atoms of marks. -/
def atoms? (m : Machine) (ρ : Vars) : List Mark → Option (List Atom)
  | [] => some []
  | mark :: marks => do
    let first ← mark.atoms? m ρ
    let others ← atoms? m ρ marks
    some (first ++ others)

end

/-- The user name behind a tilde, and the marks after it. A name that is quoted in part is none. -/
def tildeName? : List Mark → Option (Text × List Mark)
  | [] => some ([], [])
  | .char false c :: rest =>
    if c = '/' then some ([], .char false c :: rest)
    else (tildeName? rest).map fun (name, after) => (c :: name, after)
  | _ => none

/-- The marks of a word after its tilde, if it begins with one, has become a directory. -/
def expandTilde : List Mark → List Mark
  | .char false '~' :: rest =>
    match tildeName? rest with
    | some (name, after) => (m.home name).map (.char true) ++ after
    | none => .char false '~' :: rest
  | marks => marks

/-- The characters that results of expansions are split at. -/
def separators : Text := (ρ "IFS".toList).getD [' ', '\t', '\n']

/-- What an atom does to the field it stands in: nothing, or ending it, as one of many blanks do or as a
character that ends a field of its own. -/
inductive Cut where
  | keep
  | blank
  | mark
  deriving DecidableEq, Repr

/-- What an atom does to the field it stands in. -/
def Cut.ofAtom (separators : Text) : Atom → Cut
  | .result c =>
    if !separators.contains c then .keep
    else if c = ' ' ∨ c = '\t' ∨ c = '\n' then .blank
    else .mark
  | _ => .keep

/-- The fields of atoms: the one that they begin with, if they begin with one, and the others. A field
that is only ended is empty until an atom before it is met. -/
def splitFields (separators : Text) : List Atom → Option (List Atom) × List (List Atom)
  | [] => (none, [])
  | a :: rest =>
    let (field, others) := splitFields separators rest
    match Cut.ofAtom separators a with
    | .keep => (some (a :: field.getD []), others)
    | .blank => if field = some [] then (field, others) else (none, field.toList ++ others)
    | .mark => (some [], field.toList ++ others)

/-- The texts of a field: the files it matches if it is a pattern that matches any, else itself. -/
def pathnames (field : List Atom) : List Text :=
  match if field.any Atom.isLive then m.files field else [] with
  | [] => [field.flatMap Atom.text]
  | files => files

/-- The fields of a word. -/
def fields? (word : List Mark) : Option (List Text) :=
  (atoms? m ρ (expandTilde m word)).map fun atoms =>
    let (first, others) := splitFields (separators ρ) atoms
    (first.toList ++ others).flatMap (pathnames m)

/-- The marks of tokens that are all words. -/
def words? : List Token → Option (List (List Mark))
  | [] => some []
  | .word marks :: rest => (words? rest).map (marks :: ·)
  | .op _ :: _ => none

/-- The fields of words. -/
def allFields? : List (List Mark) → Option (List Text)
  | [] => some []
  | word :: rest => do
    let first ← fields? m ρ word
    let others ← allFields? rest
    some (first ++ others)

/-- The fields of a text that is one simple command. -/
def fieldsOf? (t : Text) : Option (List Text) := do
  let tokens ← read t
  let words ← words? tokens
  allFields? m ρ words

/-- The variables after one operand of `export`. A name without a value leaves its variable as it is. -/
def exportOperand? (ρ : Vars) (operand : Text) : Option Vars :=
  match Text.cutAt '=' operand with
  | some (name, value) => if isName name then some (ρ.set name value) else none
  | none => if isName operand then some ρ else none

/-- The variables after a line that is an `export` command. -/
def runExport? (line : Text) : Option Vars := do
  match ← fieldsOf? m ρ line with
  | [] => none
  | command :: operands =>
    if command = "export".toList then operands.foldlM exportOperand? ρ else none

/-- The variables after lines that are `export` commands, each run with those that the lines before it
left. -/
def runExports? : Vars → List Text → Option Vars
  | ρ, [] => some ρ
  | ρ, line :: rest => (runExport? m ρ line).bind (runExports? · rest)

end Posix

end BuildScript
