import BuildScript.Dockerfile.Escape

/-!
# Logical lines

An instruction may go on over several physical lines: a line that ends in the escape character continues
on the next line that is neither blank nor a comment. The pieces, trimmed, are joined by one space, and
the logical line has the number of its first physical line. A logical line without text is dropped; one
that still continues at the end of the input is kept.
-/

namespace BuildScript

/-- An instruction as one line of text, with the number of the physical line that it begins on. -/
structure LogicalLine where
  line : Nat
  text : Text
  deriving DecidableEq, Repr

namespace LogicalLine

/-- Whether a physical line is blank or a comment. -/
def isSkipped (raw : Text) : Bool :=
  match Text.trim raw with
  | [] => true
  | c :: _ => c == '#'

/-- What a physical line adds to its instruction, and whether the instruction goes on after it. -/
def piece (escape : Char) (raw : Text) : Text × Bool :=
  match (Text.trimEnd raw).reverse with
  | [] => ([], false)
  | c :: rest =>
    if c = escape then (Text.trim rest.reverse, true) else (Text.trim raw, false)

/-- Appends a piece to the text gathered so far, with one space between if both hold something. -/
def extend (text content : Text) : Text :=
  if content = [] then text
  else if text = [] then content
  else text ++ ' ' :: content

/-- The logical line itself, unless it has no text. -/
def kept (l : LogicalLine) : List LogicalLine :=
  if l.text = [] then [] else [l]

/-- The logical lines of numbered physical lines; `pending` is the one that goes on. -/
def gather (escape : Char) (pending : Option LogicalLine) : List (Text × Nat) → List LogicalLine
  | [] => pending.toList.flatMap kept
  | (raw, number) :: rest =>
    if isSkipped raw then gather escape pending rest
    else
      let (content, continues) := piece escape raw
      let current :=
        match pending with
        | some l => { l with text := extend l.text content }
        | none => ⟨number, content⟩
      if continues then gather escape (some current) rest
      else kept current ++ gather escape none rest

/-- The logical lines of a text in which `escape` continues lines. -/
def ofText (escape : Char) (input : Text) : List LogicalLine :=
  gather escape none ((Text.lines input).zipIdx 1)

end LogicalLine

end BuildScript
