import BuildScript.Text.Basic

/-!
# Physical lines

A line ends at a line feed, and one carriage return before that line feed belongs to the line end. The
characters after the last line feed are a line of their own if there are any; a carriage return at
their end is part of the line.
-/

namespace BuildScript.Text

/-- Removes one carriage return from the end of a line. -/
def dropReturn (line : Text) : Text :=
  match line.reverse with
  | '\r' :: rest => rest.reverse
  | _ => line

/-- The lines among pieces that stood between line feeds: the last piece is a line only if it holds
something. -/
def terminated : List Text → List Text
  | [] => []
  | [last] => if last = [] then [] else [last]
  | line :: others => dropReturn line :: terminated others

/-- The physical lines of a text, without their ends. -/
def lines (t : Text) : List Text :=
  terminated (splitAt '\n' t)

/-- The text whose lines are the given ones, each ended by a line feed. -/
def ofLines (ls : List Text) : Text :=
  ls.flatMap (· ++ ['\n'])

example : lines "a\r\nb\n\nc\r".toList = ["a".toList, "b".toList, [], "c\r".toList] := by decide

example : lines "a\n".toList = ["a".toList] ∧ lines [] = [] := by decide

end BuildScript.Text
