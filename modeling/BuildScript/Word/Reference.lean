import BuildScript.Shell.Name
import BuildScript.Word.Basic

/-!
# References to variables

What a dollar sign introduces: a name, or a name in braces that may have a modifier. A dollar sign that
introduces nothing stands for itself, and so does a pair of braces around something that is no name.
The text of a modifier is not read here; `read_length` and `arg_length` say that it and what follows
the reference are shorter than the text read, which is what reading it in turn needs.
-/

namespace BuildScript

/-- Cuts a text at the brace that closes the one before it; `depth` more are open inside. -/
def closeBrace (depth : Nat) : Text → Option (Text × Text)
  | [] => none
  | c :: rest =>
    if c = '}' then
      match depth with
      | 0 => some ([], rest)
      | depth + 1 => (closeBrace depth rest).map fun (inner, after) => (c :: inner, after)
    else
      (closeBrace (if c = '{' then depth + 1 else depth) rest).map
        fun (inner, after) => (c :: inner, after)

theorem closeBrace_length {depth : Nat} {t inner after : Text}
    (h : closeBrace depth t = some (inner, after)) :
    inner.length + after.length < t.length := by
  induction t generalizing depth inner with
  | nil => cases h
  | cons c rest ih =>
    unfold closeBrace at h
    split at h
    · split at h
      · cases h; simp
      · obtain ⟨⟨i, a⟩, hi, heq⟩ := Option.map_eq_some_iff.1 h
        cases heq
        have := ih hi
        simp only [List.length_cons]
        omega
    · obtain ⟨⟨i, a⟩, hi, heq⟩ := Option.map_eq_some_iff.1 h
      cases heq
      have := ih hi
      simp only [List.length_cons]
      omega

/-- What a dollar sign introduces. -/
inductive Reference where
  | var (name : Text)
  | cond (name : Text) (choice : Choice) (arg : Text)
  | literal (t : Text)
  deriving DecidableEq, Repr

namespace Reference

/-- What a dollar sign and braces around `inner` mean. -/
def ofBraced (inner : Text) : Reference :=
  match Text.cutAt ':' inner with
  | some (name, '-' :: arg) => if isName name then .cond name .default arg else asWritten
  | some (name, '+' :: arg) => if isName name then .cond name .alternate arg else asWritten
  | some _ => asWritten
  | none => if isName inner then .var inner else asWritten
where
  /-- The reference taken as literal text. -/
  asWritten : Reference := .literal ('$' :: '{' :: inner ++ ['}'])

/-- Reads what a dollar sign introduces from the text after it. The answer holds what follows. -/
def read : Text → Reference × Text
  | [] => (.literal ['$'], [])
  | c :: rest =>
    if c = '{' then
      match closeBrace 0 rest with
      | some (inner, after) => (ofBraced inner, after)
      | none => (.literal ['$'], c :: rest)
    else if isNameStart c then
      (.var (c :: rest.takeWhile isNameChar), rest.dropWhile isNameChar)
    else (.literal ['$'], c :: rest)

theorem ofBraced_length {inner name arg : Text} {choice : Choice}
    (h : ofBraced inner = .cond name choice arg) : arg.length < inner.length := by
  unfold ofBraced ofBraced.asWritten at h
  split at h
  · next hcut =>
    split at h
    · cases h
      rw [(Text.cutAt_eq_some hcut).1]
      simp
      omega
    · cases h
  · next hcut =>
    split at h
    · cases h
      rw [(Text.cutAt_eq_some hcut).1]
      simp
      omega
    · cases h
  · cases h
  · split at h <;> cases h

theorem read_length {t after : Text} {r : Reference} (h : read t = (r, after)) :
    after.length ≤ t.length := by
  cases t with
  | nil => cases h; simp
  | cons c rest =>
    rw [read] at h
    split at h
    · split at h
      · next hb =>
        cases h
        have := closeBrace_length hb
        simp only [List.length_cons]
        omega
      · cases h; simp
    · split at h
      · cases h
        have := (List.dropWhile_suffix isNameChar (l := rest)).length_le
        simp only [List.length_cons]
        omega
      · cases h; simp

theorem arg_length {t name arg after : Text} {choice : Choice}
    (h : read t = (.cond name choice arg, after)) : arg.length < t.length := by
  cases t with
  | nil => cases h
  | cons c rest =>
    rw [read] at h
    split at h
    · split at h
      · next hb =>
        have h1 := closeBrace_length hb
        have h2 := ofBraced_length (congrArg Prod.fst h)
        simp only [List.length_cons]
        omega
      · cases h
    · split at h <;> cases h

end Reference

end BuildScript
