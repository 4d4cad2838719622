import BuildScript.Json.Quoted

/-!
# JSON arrays of strings

The one JSON value that is read: an array whose items are all strings. The format is strict: no comma
after the last item, nothing but white space around the array, and the four white-space characters of
JSON only.
-/

namespace BuildScript.Json

/-- White space of JSON. -/
def isSpace (c : Char) : Bool :=
  c == ' ' || c == '\t' || c == '\n' || c == '\r'

/-- What is left after white space. -/
def skipSpace (t : Text) : Text := t.dropWhile isSpace

theorem skipSpace_length (t : Text) : (skipSpace t).length ≤ t.length :=
  (List.dropWhile_suffix isSpace).length_le

/-- Reads the items of an array from the first item on, up to the closing bracket. The answer holds what
follows the bracket. -/
def items? (t : Text) : Option (List Text × Text) :=
  match hq : skipSpace t with
  | '"' :: rest =>
    match hb : body? rest with
    | none => none
    | some (item, after) =>
      match hc : skipSpace after with
      | ']' :: after => some ([item], after)
      | ',' :: more =>
        have : more.length < t.length := by
          have h1 := skipSpace_length t
          have h2 := body?_length hb
          have h3 := skipSpace_length after
          rw [hq] at h1
          rw [hc] at h3
          simp only [List.length_cons] at h1 h3
          omega
        (items? more).map fun (others, after) => (item :: others, after)
      | _ => none
  | _ => none
termination_by t.length

/-- Reads a text that is an array of strings and nothing else. -/
def strings? (t : Text) : Option (List Text) :=
  match skipSpace t with
  | '[' :: rest =>
    let read :=
      match skipSpace rest with
      | ']' :: after => some ([], after)
      | _ => items? rest
    match read with
    | some (items, after) => if skipSpace after = [] then some items else none
    | none => none
  | _ => none

end BuildScript.Json
