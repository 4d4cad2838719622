import BuildScript.Unicode.Admitted
import BuildScript.Unicode.CombiningClass
import BuildScript.Unicode.Direction
import BuildScript.Unicode.Joining
import BuildScript.Unicode.Mark
import BuildScript.Unicode.Normal
import BuildScript.Url.Punycode

/-!
# Labels

The parts of a domain name between its points. A label is a text of characters that domain names may
hold; one with characters beyond ASCII is written in Punycode, after a mark that says so. A label in
Punycode is read first, so that both ways of writing a label come under the same rules.
-/

namespace BuildScript.Label

open Unicode

/-- The mark of a label in Punycode. -/
def aceMark : Text := "xn--".toList

/-- Whether a text is one of ASCII characters. -/
def isAscii (t : Text) : Bool := t.all (·.toNat < 128)

/-- A label in ASCII. -/
def toAscii (label : Text) : Text :=
  if isAscii label then label else aceMark ++ Punycode.encode label

/-- Parts letters that would join. -/
def nonJoiner : Char := Char.ofNat 0x200C

/-- Joins letters that would not. -/
def joiner : Char := Char.ofNat 0x200D

/-- How the first character joins that is not transparent. -/
def nearestJoining (t : Text) : Joining :=
  ((t.map Joining.ofChar).find? (· ≠ .transparent)).getD .none

/-- Whether a joiner or a non-joiner has a use: behind a virama, or, for a non-joiner, between letters
that would join. What stands before it is told in reverse. -/
def hasUse (before : Text) (c : Char) (after : Text) : Bool :=
  before.head?.any isVirama ||
    c == nonJoiner &&
      [.onward, .dual].contains (nearestJoining before) &&
      [.back, .dual].contains (nearestJoining after)

/-- Whether every joiner and non-joiner of a text has a use. -/
def joinersHaveUse (before : Text) : Text → Bool
  | [] => true
  | c :: after =>
    ((c ≠ joiner && c ≠ nonJoiner) || hasUse before c after) && joinersHaveUse (c :: before) after

/-- Whether a text with characters beyond ASCII is a label: in composed form, of characters that domain
names may hold, with a first one that is no mark, and not like a label in Punycode. -/
def isLabel (t : Text) : Bool :=
  t.all isAdmitted && normal t == t && !t.head?.any isMark && !aceMark.isPrefixOf t &&
    joinersHaveUse [] t

/-- The label that a text in Punycode stands for: the text is the one that writes this label. -/
def ofPunycode? (t : Text) : Option Text := do
  let label ← Punycode.decode? t
  if !isAscii label ∧ Punycode.encode label = t ∧ isLabel label then pure label else none

/-- The label that a text stands for. -/
def ofText? (t : Text) : Option Text :=
  if aceMark.isPrefixOf t then
    if isAscii t then ofPunycode? (t.drop aceMark.length) else none
  else if isAscii t then some t
  else
    let label := normal t
    if isLabel label then some label else none

/-- Whether a label holds characters that are written from right to left. None of them is below
U+0590. -/
def hasRightToLeft (label : Text) : Bool :=
  label.any fun c =>
    0x590 ≤ c.toNat && [.right, .arabicNumber].contains (Direction.ofChar c)

/-- Whether a label has one direction, from its first character to its last: a label that starts from
left to right holds nothing from right to left, and the other way round; European digits stand in both,
Arabic ones in the latter, but not together; and a letter or digit is the last, apart from marks. -/
def hasOneDirection (label : Text) : Bool :=
  let directions := label.map Direction.ofChar
  let last := (directions.reverse.dropWhile (· == .nonspacing)).head?
  match directions.head? with
  | none => true
  | some .left =>
    !directions.contains .right && !directions.contains .arabicNumber &&
      last.any [.left, .europeanNumber].contains
  | some .right =>
    !directions.contains .left &&
      !(directions.contains .europeanNumber && directions.contains .arabicNumber) &&
      last.any [.right, .europeanNumber, .arabicNumber].contains
  | some _ => false

end BuildScript.Label
