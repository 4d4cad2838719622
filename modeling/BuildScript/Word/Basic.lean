import BuildScript.Text.Basic

/-!
# Words of a build file

A word is a sequence of characters and references to variables. A reference may have a modifier, which
says what to take instead of the variable's value; the text of a modifier is a word again.

Characters stand one by one, so a word has one form only: two words with the same characters and
references are equal, and appending is associative (`append_assoc`). `segments` is the coarser view, in
which neighbouring characters are one stretch.
-/

namespace BuildScript

/-- How a modifier uses its word: instead of a value that is missing or empty (`:-`), or instead of one
that is there (`:+`). -/
inductive Choice where
  | default
  | alternate
  deriving DecidableEq, Repr

/-- A word of a build file. -/
inductive Word where
  | nil
  | char (c : Char) (rest : Word)
  | var (name : Text) (rest : Word)
  | cond (name : Text) (choice : Choice) (arg : Word) (rest : Word)
  deriving DecidableEq, Repr

namespace Word

instance : Inhabited Word := ⟨.nil⟩

/-- A word without references. -/
def literal : Text → Word
  | [] => .nil
  | c :: rest => .char c (literal rest)

/-- One word followed by another. -/
def append : Word → Word → Word
  | .nil, w => w
  | .char c rest, w => .char c (append rest w)
  | .var name rest, w => .var name (append rest w)
  | .cond name choice arg rest, w => .cond name choice arg (append rest w)

instance : Append Word := ⟨append⟩

@[simp] theorem nil_append (w : Word) : .nil ++ w = w := rfl

@[simp] theorem char_append (c : Char) (v w : Word) : .char c v ++ w = .char c (v ++ w) := rfl

@[simp] theorem var_append (name : Text) (v w : Word) : .var name v ++ w = .var name (v ++ w) := rfl

@[simp] theorem cond_append (name : Text) (choice : Choice) (arg v w : Word) :
    .cond name choice arg v ++ w = .cond name choice arg (v ++ w) := rfl

@[simp] theorem append_nil (w : Word) : w ++ .nil = w := by
  induction w with
  | nil => rfl
  | char c rest ih => simp [ih]
  | var name rest ih => simp [ih]
  | cond name choice arg rest _ ih => simp [ih]

theorem append_assoc (u v w : Word) : u ++ v ++ w = u ++ (v ++ w) := by
  induction u with
  | nil => rfl
  | char c rest ih => simp [ih]
  | var name rest ih => simp [ih]
  | cond name choice arg rest _ ih => simp [ih]

theorem literal_append (s t : Text) : literal (s ++ t) = literal s ++ literal t := by
  induction s with
  | nil => rfl
  | cons c rest ih => simp [literal, ih]

/-- Words joined with a separator text between neighbours. -/
def join (sep : Text) : List Word → Word
  | [] => .nil
  | [w] => w
  | w :: ws => w ++ literal sep ++ join sep ws

/-- Whether a word has neither characters nor references. -/
def isEmpty : Word → Bool
  | .nil => true
  | _ => false

/-- The text of a word without references. -/
def text? : Word → Option Text
  | .nil => some []
  | .char c rest => (text? rest).map (c :: ·)
  | .var _ _ | .cond _ _ _ _ => none

@[simp] theorem text?_literal (t : Text) : (literal t).text? = some t := by
  induction t with
  | nil => rfl
  | cons c rest ih => simp [literal, text?, ih]

theorem eq_literal_of_text? {w : Word} {t : Text} (h : w.text? = some t) : w = literal t := by
  induction w generalizing t with
  | nil => cases h; rfl
  | char c rest ih =>
    obtain ⟨u, hu, rfl⟩ := Option.map_eq_some_iff.1 h
    rw [literal, ih hu]
  | var name rest => cases h
  | cond name choice arg rest => cases h

/-- The characters before the first reference. -/
def leading : Word → Text
  | .char c rest => c :: leading rest
  | _ => []

/-- The characters after the last reference; `seen` holds those met since then, the last one first. -/
def trailingFrom (seen : Text) : Word → Text
  | .nil => seen.reverse
  | .char c rest => trailingFrom (c :: seen) rest
  | .var _ rest => trailingFrom [] rest
  | .cond _ _ _ rest => trailingFrom [] rest

/-- The characters after the last reference. -/
def trailing (w : Word) : Text := trailingFrom [] w

/-- Whether a word begins with literal text that begins with `start`. -/
def startsWith (start : Text) (w : Word) : Bool :=
  !w.leading.isEmpty && start.isPrefixOf w.leading

/-- Whether a word ends in literal text that ends in `ending`. -/
def endsWith (ending : Text) (w : Word) : Bool :=
  !w.trailing.isEmpty && ending.isSuffixOf w.trailing

/-- Cuts a word at the first `sep` before any reference. -/
def cutAt (sep : Char) : Word → Option (Text × Word)
  | .char c rest =>
    if c = sep then some ([], rest)
    else (cutAt sep rest).map fun (before, after) => (c :: before, after)
  | _ => none

/-- A stretch of a word: literal text, or one reference. -/
inductive Segment where
  | literal (t : Text)
  | var (name : Text)
  | cond (name : Text) (choice : Choice) (arg : Word)
  deriving DecidableEq, Repr

/-- A word as stretches of literal text, none of them empty, and the references between them. -/
def segments : Word → List Segment
  | .nil => []
  | .char c rest =>
    match segments rest with
    | .literal t :: others => .literal (c :: t) :: others
    | others => .literal [c] :: others
  | .var name rest => .var name :: segments rest
  | .cond name choice arg rest => .cond name choice arg :: segments rest

end Word

end BuildScript
