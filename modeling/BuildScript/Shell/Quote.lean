import BuildScript.Text.Basic

/-!
# Quoting for the shell

Three ways to write literal text in a shell script: as one word (`quote`), as one word whose pattern
characters stay live (`quoteGlob`), and between double quotes (`escapeDouble`). A text that needs no
quotes is written without them.
-/

namespace BuildScript.Shell

/-- Whether a character has no meaning to the shell anywhere in a word. -/
def isPlain (c : Char) : Bool :=
  c.isAlphanum || "-_=./:@".toList.contains c

/-- A single quote cannot stand between single quotes: the quotes are closed, the character is written
between double quotes, and the quotes are opened again. -/
def escapeSingle (c : Char) : Text :=
  if c = '\'' then ['\'', '"', '\'', '"', '\''] else [c]

/-- A text between single quotes. -/
def singleQuoted (t : Text) : Text :=
  '\'' :: t.flatMap escapeSingle ++ ['\'']

/-- A text as one shell word that means exactly that text. -/
def quote (t : Text) : Text :=
  if t = [] then ['\'', '\'']
  else if t.all isPlain then t
  else singleQuoted t

/-- The words of a command line. -/
def joinWords (words : List Text) : Text :=
  Text.join [' '] (words.map quote)

/-- Whether a character has a meaning in file name patterns. -/
def isGlob (c : Char) : Bool :=
  c == '*' || c == '?' || c == '[' || c == ']'

/-- Whether a text has a pattern character. -/
def hasGlob (t : Text) : Bool := t.any isGlob

/-- A stretch of a file name pattern: one live pattern character, or literal text. -/
inductive GlobPart where
  | live (c : Char)
  | literal (t : Text)
  deriving DecidableEq, Repr

/-- Cuts a pattern into its live characters and the literal stretches between them, which are not
empty. -/
def globParts : Text → List GlobPart
  | [] => []
  | c :: rest =>
    if isGlob c then .live c :: globParts rest
    else
      match globParts rest with
      | .literal t :: parts => .literal (c :: t) :: parts
      | parts => .literal [c] :: parts

/-- A stretch of a pattern as the shell has to read it. -/
def GlobPart.render : GlobPart → Text
  | .live c => [c]
  | .literal t => quote t

/-- A pattern as one shell word: literal stretches are quoted, pattern characters stay live. -/
def quoteGlob (t : Text) : Text :=
  if hasGlob t then (globParts t).flatMap GlobPart.render else quote t

/-- Whether a character has a meaning between double quotes. -/
def isDoubleSpecial (c : Char) : Bool :=
  c == '"' || c == '\\' || c == '$' || c == '\x60'

/-- Text for use between double quotes. -/
def escapeDouble (t : Text) : Text :=
  t.flatMap fun c => if isDoubleSpecial c then ['\\', c] else [c]

example : quote "O'Reilly".toList = "'O'\"'\"'Reilly'".toList := by decide

example : quoteGlob "my dir/*.txt".toList = "'my dir/'*.txt".toList := by decide

end BuildScript.Shell
