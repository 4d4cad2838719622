import BuildScript.Dockerfile.LogicalLine
import BuildScript.Json.Quoted

/-!
# Instructions

A logical line is an instruction: a keyword, in letters of either case, and its arguments. A keyword that
is not known keeps its spelling, so that the instruction can be shown.
-/

namespace BuildScript

/-- The keywords that are understood, and one for all others. -/
inductive Keyword where
  | from
  | run
  | copy
  | add
  | workdir
  | env
  | arg
  | user
  | label
  | maintainer
  | expose
  | volume
  | cmd
  | entrypoint
  | unknown
  deriving DecidableEq, Repr

namespace Keyword

/-- A keyword in capital letters. -/
def name : Keyword → Text
  | .from => "FROM".toList
  | .run => "RUN".toList
  | .copy => "COPY".toList
  | .add => "ADD".toList
  | .workdir => "WORKDIR".toList
  | .env => "ENV".toList
  | .arg => "ARG".toList
  | .user => "USER".toList
  | .label => "LABEL".toList
  | .maintainer => "MAINTAINER".toList
  | .expose => "EXPOSE".toList
  | .volume => "VOLUME".toList
  | .cmd => "CMD".toList
  | .entrypoint => "ENTRYPOINT".toList
  | .unknown => "UNKNOWN".toList

/-- The keywords that are understood. -/
def known : List Keyword :=
  [.from, .run, .copy, .add, .workdir, .env, .arg, .user, .label, .maintainer, .expose, .volume,
    .cmd, .entrypoint]

/-- The keyword that a word spells, in letters of either case. -/
def ofText (word : Text) : Keyword :=
  (known.find? (·.name == Text.upper word)).getD .unknown

end Keyword

/-- One instruction of a Dockerfile. -/
structure Instruction where
  keyword : Keyword
  /-- The keyword as it was written, in capital letters. -/
  name : Text
  arguments : Text
  line : Nat
  /-- The whole logical line. -/
  source : Text
  deriving DecidableEq, Repr

namespace Instruction

/-- The instruction that a logical line holds. -/
def ofLine (l : LogicalLine) : Instruction :=
  let source := Text.trim l.text
  let (word, rest) := Text.beforeBlank source
  { keyword := Keyword.ofText word
    name := Text.upper word
    arguments := Text.trim rest
    line := l.line
    source := source }

/-- The members of the JSON object that shows an instruction, in their order. -/
def members (i : Instruction) : List (Text × Text) :=
  [(Json.quoted "instruction".toList, Json.quoted i.name),
    (Json.quoted "value".toList, Json.quoted i.arguments),
    (Json.quoted "line".toList, Text.ofNat i.line)]

/-- An instruction as a JSON object. White space stands before each member, between its name and its value,
and behind the last one. -/
def json (before between behind : Text) (i : Instruction) : Text :=
  '{' :: before ++
    Text.join (',' :: before) (i.members.map fun (key, value) => key ++ ':' :: between ++ value) ++
    behind ++ ['}']

/-- An instruction as a JSON object on one line. -/
def compactJson (i : Instruction) : Text := i.json [] [] []

/-- An instruction as a JSON object with a member on each line, inside an array. -/
def indentedJson (i : Instruction) : Text :=
  "  ".toList ++ i.json "\n    ".toList [' '] "\n  ".toList

/-- Instructions as an indented JSON array. -/
def listJson (is : List Instruction) : Text :=
  if is = [] then "[]".toList
  else "[\n".toList ++ Text.join ",\n".toList (is.map indentedJson) ++ "\n]".toList

end Instruction

/-- The instructions of a Dockerfile. -/
def instructions (input : Text) : List Instruction :=
  (LogicalLine.ofText (escapeOf input) input).map Instruction.ofLine

end BuildScript
