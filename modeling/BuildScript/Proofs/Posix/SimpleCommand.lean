import Mathlib.Data.List.TakeWhile
import BuildScript.Proofs.Posix.Fields
import BuildScript.Shell.Token

/-!
# Simple commands

A shell takes a line apart into simple commands: what stands between control operators. A simple command is
words and redirections, in any order. Its first words may be assignments; the next one is its name, and the
others are its arguments. A word is an assignment, or a word that the shell reserves, only if the characters
that make it one are not quoted.

A number directly before a redirection is part of it, so reading has to tell where no blank stands between a
word and an operator (`Lexeme`).
-/

namespace BuildScript.Posix

/-- Whether an operator begins with a character that sends input or output elsewhere. -/
def isRedirection (c : Char) : Bool := c == '<' || c == '>'

/-- The marks of simple commands: those up to the first control operator, and those of the others. -/
def splitControls : List Mark → List Mark × List (List Mark)
  | [] => ([], [])
  | .op c :: .op d :: rest =>
    if isRedirection c && isPair c d then
      let (first, others) := splitControls rest
      (.op c :: .op d :: first, others)
    else
      let (first, others) := splitControls (.op d :: rest)
      if isRedirection c then (.op c :: first, others) else ([], first :: others)
  | .op c :: rest =>
    let (first, others) := splitControls rest
    if isRedirection c then (.op c :: first, others) else ([], first :: others)
  | m :: rest =>
    let (first, others) := splitControls rest
    (m :: first, others)

/-- The marks of each simple command of a line. Some of them may be empty. -/
def commandsOf (marks : List Mark) : List (List Mark) :=
  (splitControls marks).1 :: (splitControls marks).2

/-! ## Words and redirections -/

/-- A word, with whether an operator stands directly behind it, or an operator. -/
inductive Lexeme where
  | word (marks : List Mark) (glued : Bool)
  | op (t : Text)
  deriving Repr

/-- Whether the first of some marks is an operator. -/
def startsWithOp : List Mark → Bool
  | .op _ :: _ => true
  | _ => false

/-- The lexemes of marks: the word that they begin with, if they begin with one, and the others. -/
def collectLexemes : List Mark → Option (List Mark × Bool) × List Lexeme
  | [] => (none, [])
  | .blank :: rest =>
    let (word, lexemes) := collectLexemes rest
    (none, (word.map fun w => .word w.1 w.2).toList ++ lexemes)
  | .op c :: .op d :: rest =>
    if isPair c d then
      let (word, lexemes) := collectLexemes rest
      (none, .op [c, d] :: (word.map fun w => .word w.1 w.2).toList ++ lexemes)
    else (none, .op [c] :: (collectLexemes (.op d :: rest)).2)
  | .op c :: rest =>
    let (word, lexemes) := collectLexemes rest
    (none, .op [c] :: (word.map fun w => .word w.1 w.2).toList ++ lexemes)
  | m :: rest =>
    let (word, lexemes) := collectLexemes rest
    match word with
    | some (marks, glued) => (some (m :: marks, glued), lexemes)
    | none => (some ([m], startsWithOp rest), lexemes)

/-- The words and operators of marks. -/
def lexemes (marks : List Mark) : List Lexeme :=
  ((collectLexemes marks).1.map fun w => .word w.1 w.2).toList ++ (collectLexemes marks).2

/-- A part of a simple command. -/
inductive Item where
  | word (marks : List Mark)
  | redirection (operator : Text) (target : List Mark)
  deriving Repr

/-- The characters that a word begins with before anything is quoted or expanded. -/
def bareStart : List Mark → Text
  | .char false c :: rest => c :: bareStart rest
  | _ => []

/-- The text of a word in which nothing is quoted and nothing expanded. -/
def bareText? : List Mark → Option Text
  | [] => some []
  | .char false c :: rest => (bareText? rest).map (c :: ·)
  | _ => none

/-- Whether a word is a number. -/
def isNumber (word : List Mark) : Bool := (bareText? word).any (·.all Char.isDigit)

/-- The parts of a simple command. Every redirection has a target. -/
def items? : List Lexeme → Option (List Item)
  | [] => some []
  | .op t :: .word target _ :: rest => (items? rest).map (.redirection t target :: ·)
  | .op _ :: _ => none
  | .word marks glued :: rest =>
    (items? rest).map fun items => if glued && isNumber marks then items else .word marks :: items

/-! ## Names and arguments -/

/-- Whether a word assigns to a variable if it stands before the name of a command. -/
def isAssignment (word : List Mark) : Bool :=
  match Text.cutAt '=' (bareStart word) with
  | some (name, _) => isName name
  | none => false

/-- The name of a simple command and its arguments: its words from the first one on that is no assignment. -/
def argumentsOf : List Item → List (List Mark)
  | [] => []
  | .redirection _ _ :: rest => argumentsOf rest
  | .word w :: rest =>
    if isAssignment w then argumentsOf rest
    else w :: rest.filterMap fun
      | .word v => some v
      | .redirection _ _ => none

/-- The words that are not taken for the name of a command unless they are quoted. -/
def reservedWords : List Text :=
  ["!", "\x7b", "\x7d", "case", "do", "done", "elif", "else", "esac", "fi", "for", "if", "in", "then",
    "until", "while"].map String.toList

/-- Whether a simple command begins with a word that is reserved. -/
def startsReserved : List Item → Bool
  | .word w :: _ => (bareText? w).any reservedWords.contains
  | _ => false

/-- The name and the arguments that a text gives to a command, if it is one simple command. -/
def argumentsOf? (m : Machine) (ρ : Vars) (t : Text) : Option (List Text) := do
  let marks ← (Reader.start.run t).marks?
  match commandsOf marks with
  | [command] =>
    let items ← items? (lexemes command)
    if startsReserved items then none else allFields? m ρ (argumentsOf items)
  | _ => none

/-! ## Words in a row -/

theorem splitControls_cons {m : Mark} (h : ∀ c, m ≠ .op c) (rest : List Mark) :
    splitControls (m :: rest) = (m :: (splitControls rest).1, (splitControls rest).2) := by
  cases m with
  | op c => exact absurd rfl (h c)
  | _ => simp [splitControls]

theorem splitControls_append {ms : List Mark} (h : ∀ m ∈ ms, m.isPart = true) (rest : List Mark) :
    splitControls (ms ++ rest) = (ms ++ (splitControls rest).1, (splitControls rest).2) := by
  induction ms with
  | nil => rfl
  | cons m ms ih =>
    have hms := ih fun k hk => h k (List.mem_cons_of_mem m hk)
    have hm : ∀ c, m ≠ .op c := by
      rintro c rfl
      cases h _ List.mem_cons_self
    rw [List.cons_append, splitControls_cons hm, hms]
    rfl

theorem splitControls_spaced {mss : List (List Mark)} (h : ∀ ms ∈ mss, IsWord ms) :
    splitControls (spaced mss) = (spaced mss, []) := by
  refine spaced_induction (P := fun _ ms => splitControls ms = (ms, [])) rfl ?_ ?_ h
  · intro ms hms
    simpa [splitControls] using splitControls_append hms.2 []
  · intro ms others hms _ ih
    rw [splitControls_append hms.2, splitControls_cons (by simp), ih]

theorem collectLexemes_cons {m : Mark} (hm : m.isPart = true) (rest : List Mark) :
    collectLexemes (m :: rest) =
      match (collectLexemes rest).1 with
      | some (marks, glued) => (some (m :: marks, glued), (collectLexemes rest).2)
      | none => (some ([m], startsWithOp rest), (collectLexemes rest).2) := by
  cases m with
  | blank => cases hm
  | op c => cases hm
  | _ => rfl

theorem collectLexemes_append {ms : List Mark} (h : IsWord ms) {rest : List Mark}
    (hrest : (collectLexemes rest).1 = none) :
    collectLexemes (ms ++ rest) = (some (ms, startsWithOp rest), (collectLexemes rest).2) := by
  obtain ⟨hne, hparts⟩ := h
  induction ms with
  | nil => exact absurd rfl hne
  | cons m ms ih =>
    rw [List.cons_append, collectLexemes_cons (hparts m List.mem_cons_self)]
    by_cases hms : ms = []
    · simp [hms, hrest]
    · rw [ih hms fun k hk => hparts k (List.mem_cons_of_mem _ hk)]

theorem lexemes_spaced {mss : List (List Mark)} (h : ∀ ms ∈ mss, IsWord ms) :
    lexemes (spaced mss) = mss.map (.word · false) := by
  refine spaced_induction (P := fun mss ms => lexemes ms = mss.map (.word · false)) rfl ?_ ?_ h
  · intro ms hms
    have hlast : (collectLexemes []).1 = none := rfl
    have hcollect := collectLexemes_append hms hlast
    rw [List.append_nil] at hcollect
    rw [lexemes, hcollect]
    rfl
  · intro ms others hms _ ih
    rw [lexemes, collectLexemes_append hms rfl, List.map_cons, ← ih]
    rfl

theorem items?_words (mss : List (List Mark)) :
    items? (mss.map (.word · false)) = some (mss.map .word) := by
  induction mss with
  | nil => rfl
  | cons ms others ih => simp [items?, ih]

theorem argumentsOf_words (mss : List (List Mark)) :
    argumentsOf (mss.map .word) = mss.dropWhile isAssignment := by
  induction mss with
  | nil => rfl
  | cons ms others ih =>
    have hwords : (others.map Item.word).filterMap (fun
        | .word v => some v
        | .redirection _ _ => none) = others := by
      simp [List.filterMap_map]
    by_cases h : isAssignment ms = true
    · rw [List.map_cons, argumentsOf, if_pos h, ih, List.dropWhile_cons_of_pos h]
    · rw [List.map_cons, argumentsOf, if_neg h, hwords, List.dropWhile_cons_of_neg h]

/-! ## Quoted words -/

theorem isWord_quoteMarks (t : Text) : IsWord (quoteMarks t) :=
  isWord_of_inert (reads_quoteMarks noChar t).inert (isSolid_quoteMarks t)

theorem allFields?_quoteMarks (m : Machine) (ρ : Vars) (ts : List Text) :
    allFields? m ρ (ts.map quoteMarks) = some ts := by
  induction ts with
  | nil => rfl
  | cons t others ih =>
    have hfields :=
      (reads_quoteMarks noChar t).fields? (isSolid_quoteMarks t) (Word.closed_literal t) m ρ
    simp [allFields?, hfields, ih]

theorem Reader.run_joinWords {r : Reader} (hr : r.IsBare) (ts : List Text) :
    r.run (Shell.joinWords ts) = r.addAll (spaced (ts.map quoteMarks)) := by
  have hquote : ∀ t ∈ ts, ∀ r : Reader, r.IsBare →
      ∃ ms, r.run (Shell.quote t) = r.addAll ms ∧ quoteMarks t = ms :=
    fun t _ r hr => ⟨_, hr.run_quote t, rfl⟩
  obtain ⟨mss, hrun, hall⟩ := run_join hquote hr
  rw [← List.forall₂_map_left_iff, List.forall₂_eq_eq_eq] at hall
  rw [Shell.joinWords, hrun, hall]

/-- Quoted words are the fields of a text, whatever characters they have. -/
theorem fieldsOf?_joinWords (m : Machine) (ρ : Vars) (ts : List Text) :
    fieldsOf? m ρ (Shell.joinWords ts) = some ts := by
  have hwords : ∀ ms ∈ ts.map quoteMarks, IsWord ms :=
    List.forall_mem_map.2 fun t _ => isWord_quoteMarks t
  have hread := read_of_run (Reader.run_joinWords Reader.isBare_start ts)
  rw [tokens_spaced hwords] at hread
  simp only [fieldsOf?, hread, Option.bind_eq_bind, Option.bind_some, words?_map_word,
    allFields?_quoteMarks]

theorem fieldsOf?_quote (m : Machine) (ρ : Vars) (t : Text) :
    fieldsOf? m ρ (Shell.quote t) = some [t] :=
  fieldsOf?_joinWords m ρ [t]

/-- Whether a text is written without quotes as a word that is reserved. -/
def showsReserved (t : Text) : Bool := t.all Shell.isPlain && reservedWords.contains t

/-- Whether a text is written without quotes as an assignment. -/
def showsAssignment (t : Text) : Bool := t.all Shell.isPlain && Shell.isAssignment t

theorem bareText?_map_char (t : Text) : bareText? (t.map (.char false)) = some t := by
  induction t with
  | nil => rfl
  | cons c rest ih => rw [List.map_cons, bareText?, ih, Option.map_some]

theorem bareStart_map_char (t : Text) : bareStart (t.map (.char false)) = t := by
  induction t with
  | nil => rfl
  | cons c rest ih => rw [List.map_cons, bareStart, ih]

theorem bareText?_quoteMarks (t : Text) :
    (bareText? (quoteMarks t)).any reservedWords.contains = showsReserved t := by
  unfold quoteMarks showsReserved
  split
  · next h => rw [bareText?_map_char, h.2, Option.any_some, Bool.true_and]
  · next h =>
    by_cases hnil : t = []
    · rw [hnil]
      rfl
    · rw [Bool.eq_false_iff.2 fun hplain => h ⟨hnil, hplain⟩]
      rfl

theorem isAssignment_quoteMarks (t : Text) : isAssignment (quoteMarks t) = showsAssignment t := by
  unfold isAssignment
  unfold quoteMarks showsAssignment
  by_cases h : t ≠ [] ∧ t.all Shell.isPlain = true
  · rw [if_pos h, bareStart_map_char, h.2, Bool.true_and]
    rfl
  · rw [if_neg h]
    by_cases hnil : t = []
    · rw [hnil]
      rfl
    · rw [Bool.eq_false_iff.2 fun hplain => h ⟨hnil, hplain⟩]
      rfl

/-- Quoted words are a command with its arguments, but for those at the start that are assignments; with a
reserved word at the start they are no simple command. -/
theorem argumentsOf?_joinWords (m : Machine) (ρ : Vars) (ts : List Text) :
    argumentsOf? m ρ (Shell.joinWords ts) =
      if ts.head?.any showsReserved then none else some (ts.dropWhile showsAssignment) := by
  have hwords : ∀ ms ∈ ts.map quoteMarks, IsWord ms :=
    List.forall_mem_map.2 fun t _ => isWord_quoteMarks t
  have hmarks : (Reader.start.run (Shell.joinWords ts)).marks? = some (spaced (ts.map quoteMarks)) := by
    rw [Reader.run_joinWords Reader.isBare_start]
    rfl
  have hcommands : commandsOf (spaced (ts.map quoteMarks)) = [spaced (ts.map quoteMarks)] := by
    rw [commandsOf, splitControls_spaced hwords]
  have hreserved : startsReserved ((ts.map quoteMarks).map .word) = ts.head?.any showsReserved := by
    cases ts with
    | nil => rfl
    | cons t others => exact bareText?_quoteMarks t
  have harguments : argumentsOf ((ts.map quoteMarks).map .word) =
      (ts.dropWhile showsAssignment).map quoteMarks := by
    have hshows : isAssignment ∘ quoteMarks = showsAssignment := funext isAssignment_quoteMarks
    rw [argumentsOf_words, List.dropWhile_map, hshows]
  simp only [argumentsOf?, hmarks, Option.bind_eq_bind, Option.bind_some, hcommands,
    lexemes_spaced hwords, items?_words, hreserved, harguments, allFields?_quoteMarks]

/-- Quoted words are a command with its arguments unless the shell takes the first one for a reserved word
or an assignment, which it does only with one that is written without quotes. -/
theorem argumentsOf?_joinWords_eq_some_iff (m : Machine) (ρ : Vars) (ts : List Text) :
    argumentsOf? m ρ (Shell.joinWords ts) = some ts ↔
      ∀ t ∈ ts.head?, showsReserved t = false ∧ showsAssignment t = false := by
  rw [argumentsOf?_joinWords]
  cases ts with
  | nil => simp
  | cons t others =>
    have hdrop : (t :: others).dropWhile showsAssignment = t :: others ↔ showsAssignment t = false := by
      rw [List.dropWhile_eq_self_iff]
      simp
    cases hreserved : showsReserved t <;> simp [hreserved, hdrop]

end BuildScript.Posix
