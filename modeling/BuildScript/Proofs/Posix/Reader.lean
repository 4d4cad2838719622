import BuildScript.Shell.Name

/-!
# How a shell reads a script

A POSIX shell takes a script character by character and tells what each one is: part of a word, a quote,
a blank between words, an operator, or the start of something to be expanded. The reader here does the
same. What it reads is a list of marks; a parameter in braces and a command to be substituted hold marks
of their own, so the reader keeps a stack of the places that are still open.

It is a function of one character at a time, so what it reads from two texts in a row is what it reads
from the second one in the state that the first one left (`run_append`). A script is read when nothing is
left open at its end (`Reader.marks?`).

Double quotes do not end at a brace and braces do not end at a quote inside them: in double quotes,
`${` opens a place of its own, in which the next brace that is not escaped closes it. Here-documents are
not read, and arithmetic is read as a command in parentheses.
-/

namespace BuildScript.Posix

/-- What a stretch of a script is read as. -/
inductive Mark where
  /-- A character of a word. One that is quoted stands for itself; one that is not may still be a pattern
  or a tilde. -/
  | char (quoted : Bool) (c : Char)
  /-- A quote that opens. It adds no character to a word, but it makes one. -/
  | quotes
  /-- A parameter, with the operator and the word that stand behind its name in braces. -/
  | param (quoted : Bool) (name operator : Text) (arg : List Mark)
  /-- A command whose output is substituted. -/
  | command (quoted : Bool) (body : List Mark)
  /-- A command between backquotes, not read any further. -/
  | backquoted (quoted : Bool) (body : Text)
  | blank
  | op (c : Char)
  deriving Repr

namespace Mark

/-- The name at the start of what stands in braces, and the marks after it. -/
def splitName (quoted : Bool) : List Mark → Text × List Mark
  | .char q c :: rest =>
    if q = quoted ∧ isNameChar c then
      let (name, after) := splitName quoted rest
      (c :: name, after)
    else ([], .char q c :: rest)
  | marks => ([], marks)

/-- The operator at the start of what follows a name in braces, and the marks after it. -/
def splitOperator : List Mark → Text × List Mark
  | .char _ ':' :: .char q c :: rest =>
    if "-=?+".toList.contains c then ([':', c], rest) else ([], .char q ':' :: .char q c :: rest)
  | .char q c :: rest =>
    if "-=?+%#".toList.contains c then ([c], rest) else ([], .char q c :: rest)
  | marks => ([], marks)

/-- A parameter in braces, told by what stands between them. -/
def ofBraces (quoted : Bool) (marks : List Mark) : Mark :=
  let (name, rest) := splitName quoted marks
  let (operator, arg) := splitOperator rest
  .param quoted name operator arg

end Mark

/-- What ends the place that is read: the end of the script, a parenthesis that closes a command, with
`depth` more open inside, or a brace. -/
inductive Closer where
  | script
  | command (quoted : Bool) (depth : Nat)
  | brace (quoted : Bool)
  deriving DecidableEq, Repr

/-- A place that is open: what ends it, whether a double quote is open in it, and its marks so far. -/
structure Level where
  closer : Closer
  double : Bool
  marks : List Mark
  deriving Repr

/-- Whether characters of a place are quoted by double quotes, its own or those around its braces. -/
def Level.quoted (l : Level) : Bool := l.double || l.closer == .brace true

/-- What the last characters have begun and the next one goes on with. -/
inductive Pending where
  | nothing
  | escape
  | single
  | dollar
  | name (t : Text)
  | backquote (escaped : Bool) (t : Text)
  | comment
  deriving DecidableEq, Repr

/-- A shell at some place of a script: the innermost place that is open, and those around it. -/
structure Reader extends Level where
  pending : Pending
  outer : List Level
  deriving Repr

/-- Whether a character is part of an operator; the end of a line is one. -/
def isOperator (c : Char) : Bool := ";&|()<>\n".toList.contains c

/-- Whether a character behind a dollar sign is a parameter of the shell's own. -/
def isSpecial (c : Char) : Bool := c.isDigit || "@*#?-$!".toList.contains c

/-- Whether a backslash between double quotes protects a character; `braced` tells that they stand around
braces which are open. -/
def isEscapable (braced : Bool) (c : Char) : Bool :=
  "$\"\\\x60".toList.contains c || (braced && c == '}')

namespace Reader

/-- The reader at the start of a script. -/
def start : Reader :=
  { closer := .script, double := false, marks := [], pending := .nothing, outer := [] }

/-- Adds a mark to the innermost place. -/
def add (r : Reader) (m : Mark) : Reader := { r with marks := r.marks ++ [m] }

/-- Adds marks to the innermost place. -/
def addAll (r : Reader) (ms : List Mark) : Reader := { r with marks := r.marks ++ ms }

/-- Leaves nothing pending. -/
def settle (r : Reader) : Reader := { r with pending := .nothing }

/-- Waits for the next character. -/
def await (r : Reader) (p : Pending) : Reader := { r with pending := p }

/-- Opens a place inside the innermost one. -/
def enter (r : Reader) (closer : Closer) : Reader :=
  { closer := closer, double := false, marks := [], pending := .nothing
    outer := r.toLevel :: r.outer }

/-- Closes the innermost place; in the one around it, it is the mark `m`. -/
def leave (r : Reader) (m : Mark) : Reader :=
  match r.outer with
  | [] => r
  | l :: outer => { l with marks := l.marks ++ [m], pending := .nothing, outer := outer }

/-- Whether the next character begins a word. -/
def atWordStart (r : Reader) : Bool :=
  match r.marks.getLast? with
  | none | some .blank | some (.op _) => true
  | _ => false

/-- Reads a character of an operator. -/
def operator (r : Reader) (c : Char) : Reader :=
  match r.closer, c with
  | .command quoted 0, ')' => r.leave (.command quoted r.marks)
  | .command quoted (depth + 1), ')' => { r.add (.op c) with closer := .command quoted depth }
  | .command quoted depth, '(' => { r.add (.op c) with closer := .command quoted (depth + 1) }
  | _, _ => r.add (.op c)

/-- Reads a character outside quotes and braces that opens no expansion. -/
def bare (r : Reader) (c : Char) : Reader :=
  if c = '\'' then (r.add .quotes).await .single
  else if c = '#' ∧ r.atWordStart then r.await .comment
  else if c = ' ' ∨ c = '\t' then r.add .blank
  else if isOperator c then r.operator c
  else r.add (.char false c)

/-- Reads a character before which nothing is pending. -/
def plain (r : Reader) (c : Char) : Reader :=
  if c = '\\' then r.await .escape
  else if c = '"' then
    if r.double then { r with double := false } else { r.add .quotes with double := true }
  else if c = '$' then r.await .dollar
  else if c = '\x60' then r.await (.backquote false [])
  else if r.double then r.add (.char true c)
  else
    match r.closer with
    | .brace quoted =>
      if c = '}' then r.leave (.ofBraces quoted r.marks)
      else if c = '\'' ∧ quoted = false then (r.add .quotes).await .single
      else r.add (.char quoted c)
    | _ => r.bare c

/-- Reads a character behind a backslash. Between double quotes a backslash protects few characters and
stands for itself before all others. An end of line behind a backslash is no character at all. -/
def escaped (r : Reader) (c : Char) : Reader :=
  if c = '\n' then r
  else if r.quoted && !isEscapable (!r.double) c then
    (r.add (.char true '\\')).add (.char true c)
  else r.add (.char true c)

/-- Reads a character behind a dollar sign. -/
def expansion (r : Reader) (c : Char) : Reader :=
  if c = '{' then r.enter (.brace r.quoted)
  else if c = '(' then r.enter (.command r.quoted 0)
  else if isNameStart c then r.await (.name [c])
  else if isSpecial c then r.add (.param r.quoted [c] [] [])
  else (r.add (.char r.quoted '$')).plain c

/-- Reads one character. -/
def step (r : Reader) (c : Char) : Reader :=
  match r.pending with
  | .nothing => r.plain c
  | .escape => r.settle.escaped c
  | .single => if c = '\'' then r.settle else r.add (.char true c)
  | .dollar => r.settle.expansion c
  | .name t =>
    if isNameChar c then r.await (.name (t ++ [c]))
    else (r.settle.add (.param r.quoted t [] [])).plain c
  | .backquote true t => r.await (.backquote false (t ++ [c]))
  | .backquote false t =>
    if c = '\x60' then r.settle.add (.backquoted r.quoted t)
    else r.await (.backquote (c == '\\') (t ++ [c]))
  | .comment => if c = '\n' then r.settle.plain c else r

/-- Reads a text. -/
def run (r : Reader) (t : Text) : Reader := t.foldl step r

@[simp] theorem run_nil (r : Reader) : r.run [] = r := rfl

@[simp] theorem run_cons (r : Reader) (c : Char) (t : Text) : r.run (c :: t) = (r.step c).run t := rfl

theorem run_append (r : Reader) (s t : Text) : r.run (s ++ t) = (r.run s).run t :=
  List.foldl_append

@[simp] theorem addAll_nil (r : Reader) : r.addAll [] = r := by
  simp [addAll]

theorem add_eq_addAll (r : Reader) (m : Mark) : r.add m = r.addAll [m] := rfl

theorem addAll_addAll (r : Reader) (ms ns : List Mark) :
    (r.addAll ms).addAll ns = r.addAll (ms ++ ns) := by
  simp [addAll]

/-- The marks of a script that was read to its end, unless something is left open there. -/
def marks? (r : Reader) : Option (List Mark) :=
  if r.outer.isEmpty && !r.double then
    match r.pending with
    | .nothing | .comment => some r.marks
    | .dollar => some (r.marks ++ [.char false '$'])
    | .name t => some (r.marks ++ [.param false t [] []])
    | _ => none
  else none

end Reader

/-- A word of a script, or an operator. -/
inductive Token where
  | word (marks : List Mark)
  | op (t : Text)
  deriving Repr

/-- Whether two characters are one operator. -/
def isPair (c d : Char) : Bool :=
  ["&&", "||", ";;", "<<", ">>", "<&", ">&", "<>", ">|"].any (·.toList == [c, d])

/-- The tokens of marks: the word that they begin with, if they begin with one, and the others. -/
def collect : List Mark → Option (List Mark) × List Token
  | [] => (none, [])
  | .blank :: rest =>
    let (word, tokens) := collect rest
    (none, word.toList.map .word ++ tokens)
  | .op c :: .op d :: rest =>
    if isPair c d then
      let (word, tokens) := collect rest
      (none, .op [c, d] :: word.toList.map .word ++ tokens)
    else (none, .op [c] :: (collect (.op d :: rest)).2)
  | .op c :: rest =>
    let (word, tokens) := collect rest
    (none, .op [c] :: word.toList.map .word ++ tokens)
  | m :: rest =>
    let (word, tokens) := collect rest
    (some (m :: word.getD []), tokens)

/-- The words and operators that marks make up. -/
def tokens (marks : List Mark) : List Token :=
  (collect marks).1.toList.map .word ++ (collect marks).2

/-- The words and operators of a script, unless something is left open at its end. -/
def read (t : Text) : Option (List Token) :=
  (Reader.start.run t).marks?.map tokens

end BuildScript.Posix
