import BuildScript.Text.Blank
import BuildScript.Word.Reference

/-!
# Reading words

The arguments of a build instruction are words: quotes group text, an escape character protects the next
character, and a dollar sign introduces a reference. The reading goes in two steps. `scan` tells for each
stretch of the text what it contributes to the word it stands in, or that it separates words; the
stretches are then put together, either between separators (`lexAll`) or all of them (`lex`).

The text of a modifier is read as one word, in which nothing separates.
-/

namespace BuildScript.Word

/-- What a stretch of text contributes: a piece of the word it stands in, or the end of that word. -/
inductive Mark where
  | part (w : Word)
  | blank
  deriving DecidableEq, Repr

/-- The pieces of scanned text as one word. -/
def Mark.concat : List Mark → Word
  | [] => .nil
  | .part w :: marks => w ++ concat marks
  | .blank :: marks => concat marks

/-- The words of scanned text: the one it begins with, if it begins with one, and the others. -/
def Mark.collect : List Mark → Option Word × List Word
  | [] => (none, [])
  | .part w :: marks =>
    let (first, others) := collect marks
    (some (w ++ first.getD .nil), others)
  | .blank :: marks =>
    let (first, others) := collect marks
    (none, first.toList ++ others)

/-- Whether the escape character protects `c`: outside quotes any character, between double quotes only
the quote, the dollar sign and the escape character itself. -/
def isProtected (escape : Char) (quoted : Bool) (c : Char) : Bool :=
  !quoted || c == '"' || c == '$' || c == escape

/-- Reads a text from a place inside double quotes (`quoted`) or outside. Outside quotes the characters
of `separates` end a word. A quote that opens or closes contributes the empty word, so that a pair of
quotes is a word. -/
def scan (separates : Char → Bool) (escape : Char) (quoted : Bool) (t : Text) : List Mark :=
  match t with
  | [] => []
  | c :: rest =>
    if !quoted && separates c then .blank :: scan separates escape quoted rest
    else if c = '\'' ∧ quoted = false then
      .part (literal (rest.takeWhile (· ≠ '\''))) ::
        scan separates escape quoted (rest.dropWhile (· ≠ '\'')).tail
    else if c = '"' then .part .nil :: scan separates escape (!quoted) rest
    else if c = escape then
      match rest with
      | [] => [.part (.char c .nil)]
      | d :: after =>
        if isProtected escape quoted d then
          .part (.char d .nil) :: scan separates escape quoted after
        else .part (.char c .nil) :: scan separates escape quoted (d :: after)
    else if c = '$' then
      match h : Reference.read rest with
      | (.var name, after) =>
        have := Reference.read_length h
        .part (.var name .nil) :: scan separates escape quoted after
      | (.cond name choice arg, after) =>
        have := Reference.read_length h
        have := Reference.arg_length h
        .part (.cond name choice (Mark.concat (scan (fun _ => false) escape false arg)) .nil) ::
          scan separates escape quoted after
      | (.literal u, after) =>
        have := Reference.read_length h
        .part (literal u) :: scan separates escape quoted after
    else .part (.char c .nil) :: scan separates escape quoted rest
termination_by t.length
decreasing_by
  all_goals simp only [List.length_cons, List.length_tail]
  all_goals try omega
  have := (List.dropWhile_suffix (fun c => decide (c ≠ '\'')) (l := rest)).length_le
  omega

/-- The words of a text. -/
def lexAll (escape : Char) (t : Text) : List Word :=
  let (first, others) := Mark.collect (scan isBlank escape false t)
  first.toList ++ others

/-- A text as one word; its blanks are characters like others. -/
def lex (escape : Char) (t : Text) : Word :=
  Mark.concat (scan (fun _ => false) escape false t)

end BuildScript.Word
