import BuildScript.Proofs.Shell.Words
import BuildScript.Proofs.Word.Characters

/-!
# Reading back what was quoted

The library writes words for a shell, and it has two readers of its own: of the words of a build file
(`Word.lexAll`) and of the words of a command line (`Shell.tokens`). Both undo the quoting. Words without
modifiers that were written as shell words and joined are the words that a build file would have there
(`Word.lexAll_join_toShell`), and quoted texts that were joined are the tokens of the line
(`readers_undo_quoting`).

What is written for a piece of a word is read as that piece whatever stands behind it, so each lemma has the
rest of the text as a parameter. A piece is put in front of what the rest is read as by `Mark.adjoin`.
-/

namespace BuildScript

namespace Word

/-- A piece of a word before words that were read: it belongs to the word that they begin with. -/
def Mark.adjoin (w : Word) (words : Option Word × List Word) : Option Word × List Word :=
  (some (w ++ words.1.getD .nil), words.2)

theorem Mark.adjoin_adjoin (v w : Word) (words : Option Word × List Word) :
    adjoin v (adjoin w words) = adjoin (v ++ w) words := by
  rw [adjoin, adjoin, adjoin, append_assoc]
  rfl

/-- The word that a text begins with, if it begins with one, and the others, from a place inside double quotes
(`quoted`) or outside. -/
def wordsFrom (escape : Char) (quoted : Bool) (t : Text) : Option Word × List Word :=
  Mark.collect (scan isBlank escape quoted t)

variable {escape c : Char} {quoted : Bool} {name t : Text}

open Mark (adjoin)

theorem lexAll_eq (escape : Char) (t : Text) :
    lexAll escape t = (wordsFrom escape false t).1.toList ++ (wordsFrom escape false t).2 := rfl

theorem wordsFrom_nil : wordsFrom escape quoted [] = (none, []) := by
  rw [wordsFrom, scan]
  rfl

/-! ## One character -/

theorem wordsFrom_blank (hc : isBlank c = true) (t : Text) :
    wordsFrom escape false (c :: t) = (none, lexAll escape t) := by
  rw [wordsFrom, scan.eq_def]
  dsimp only
  rw [if_pos (by simpa using hc)]
  rfl

/-- A character that neither separates nor quotes nor introduces a reference stands for itself. -/
theorem wordsFrom_char (hbare : quoted = false → isBlank c = false ∧ c ≠ '\'') (hquote : c ≠ '"')
    (hescape : c ≠ escape) (hdollar : c ≠ '$') (t : Text) :
    wordsFrom escape quoted (c :: t) = adjoin (.char c .nil) (wordsFrom escape quoted t) := by
  have hblank : ¬(!quoted && isBlank c) = true := by
    cases quoted with
    | true => simp
    | false => simpa using (hbare rfl).1
  have hsingle : ¬(c = '\'' ∧ quoted = false) := fun h => (hbare h.2).2 h.1
  rw [wordsFrom, scan.eq_def]
  dsimp only
  rw [if_neg hblank, if_neg hsingle, if_neg hquote, if_neg hescape, if_neg hdollar]
  rfl

theorem wordsFrom_doubleQuote (quoted : Bool) (t : Text) :
    wordsFrom escape quoted ('"' :: t) = adjoin .nil (wordsFrom escape (!quoted) t) := by
  have hblank : ¬(!quoted && isBlank '"') = true := by cases quoted <;> decide
  rw [wordsFrom, scan.eq_def]
  dsimp only
  rw [if_neg hblank, if_neg (fun h => absurd h.1 (by decide)), if_pos rfl]
  rfl

theorem wordsFrom_singleQuote (t : Text) :
    wordsFrom escape false ('\'' :: t) =
      adjoin (literal (t.takeWhile (· ≠ '\'')))
        (wordsFrom escape false (t.dropWhile (· ≠ '\'')).tail) := by
  rw [wordsFrom, scan.eq_def]
  dsimp only
  rw [if_neg (by decide), if_pos ⟨rfl, rfl⟩]
  rfl

/-! ## References -/

theorem closeBrace_append (hname : isName name = true) (t : Text) :
    closeBrace 0 (name ++ '}' :: t) = some (name, t) := by
  have hchars : ∀ d ∈ name, isNameChar d = true := fun d hd => isNameChar_of_mem_isName hname hd
  clear hname
  induction name with
  | nil => rfl
  | cons d name ih =>
    have hne : ∀ e ∈ ['{', '}'], d ≠ e := by
      rintro e he rfl
      have hnone : ['{', '}'].any isNameChar = false := by decide
      exact List.any_eq_false.1 hnone d he (hchars d List.mem_cons_self)
    rw [List.cons_append, closeBrace, if_neg (hne '}' (by decide)), if_neg (hne '{' (by decide)),
      ih fun e he => hchars e (List.mem_cons_of_mem _ he)]
    rfl

theorem read_reference (hname : isName name = true) (t : Text) :
    Reference.read ('{' :: (name ++ '}' :: t)) = (.var name, t) := by
  have hcut : Text.cutAt ':' name = none := by
    rw [Text.cutAt_eq_none]
    intro hmem
    cases isNameChar_of_mem_isName hname hmem
  rw [Reference.read_of_closeBrace (closeBrace_append hname t)]
  show (Reference.ofBraced name, t) = _
  rw [Reference.ofBraced, hcut]
  show (if isName name = true then _ else _, t) = _
  rw [if_pos hname]

/-- A reference is read as one, in double quotes and outside. -/
theorem wordsFrom_reference (hescape : escape ≠ '$') (hname : isName name = true) (t : Text) :
    wordsFrom escape quoted (Shell.reference name [] ++ t) =
      adjoin (.var name .nil) (wordsFrom escape quoted t) := by
  have htext : Shell.reference name [] ++ t = '$' :: '{' :: (name ++ '}' :: t) := by
    simp [Shell.reference]
  have hblank : ¬(!quoted && isBlank '$') = true := by cases quoted <;> decide
  rw [htext, wordsFrom, scan.eq_def]
  dsimp only
  rw [if_neg hblank, if_neg (fun h => absurd h.1 (by decide)), if_neg (by decide),
    if_neg hescape.symm, if_pos rfl]
  split
  · next other after hread =>
    rw [read_reference hname] at hread
    cases hread
    rfl
  · next other choice arg after hread =>
    rw [read_reference hname] at hread
    cases hread
  · next u after hread =>
    rw [read_reference hname] at hread
    cases hread

/-! ## Quoted text -/

/-- Pieces that are read one by one are read as the word that they make up. -/
theorem wordsFrom_flatMap {α : Type} {text : α → Text} {word : α → Word} {as : List α}
    (hpiece : ∀ a ∈ as, ∀ rest, wordsFrom escape false (text a ++ rest) =
      adjoin (word a) (wordsFrom escape false rest))
    (hne : as ≠ []) (rest : Text) :
    wordsFrom escape false (as.flatMap text ++ rest) =
      adjoin (concat (as.map word)) (wordsFrom escape false rest) := by
  induction as with
  | nil => exact absurd rfl hne
  | cons a as ih =>
    obtain ⟨ha, has⟩ := List.forall_mem_cons.1 hpiece
    rw [List.flatMap_cons, List.append_assoc, ha]
    by_cases hnil : as = []
    · subst hnil
      rw [List.map_singleton, concat, List.foldr_cons, List.foldr_nil, append_nil]
      rfl
    · rw [ih has hnil, Mark.adjoin_adjoin]
      rfl

theorem concat_chars (t : Text) : concat (t.map fun c => .char c .nil) = literal t := by
  induction t with
  | nil => rfl
  | cons c rest ih => exact congrArg (Word.char c) ih

/-- Text that needs no quotes is read as itself. -/
theorem wordsFrom_plain (hescape : Shell.isPlain escape = false) (ht : ∀ c ∈ t, Shell.isPlain c = true)
    (hne : t ≠ []) (rest : Text) :
    wordsFrom escape false (t ++ rest) = adjoin (literal t) (wordsFrom escape false rest) := by
  have hpiece : ∀ c ∈ t, ∀ rest, wordsFrom escape false ([c] ++ rest) =
      adjoin (.char c .nil) (wordsFrom escape false rest) := by
    intro c hc rest
    have hplain := ht c hc
    have hother : ∀ d, Shell.isPlain d = false → c ≠ d := by
      rintro d hd rfl
      rw [hplain] at hd
      cases hd
    exact wordsFrom_char (fun _ => ⟨Shell.isBlank_of_isPlain hplain, hother '\'' (by decide)⟩)
      (hother '"' (by decide)) (hother escape hescape) (hother '$' (by decide)) rest
  have hread := wordsFrom_flatMap hpiece hne rest
  rwa [List.flatMap_singleton', concat_chars] at hread

/-- Text between single quotes stands for itself, however often the quotes are closed and opened again. -/
theorem wordsFrom_escapeSingle (hescape : escape ≠ '\'') (t rest : Text) :
    wordsFrom escape false ('\'' :: (t.flatMap Shell.escapeSingle ++ '\'' :: rest)) =
      adjoin (literal t) (wordsFrom escape false rest) := by
  induction t with
  | nil =>
    rw [wordsFrom_singleQuote]
    rfl
  | cons c t ih =>
    have hliteral : literal (c :: t) = .char c .nil ++ literal t := rfl
    rw [List.flatMap_cons, List.append_assoc, hliteral, ← Mark.adjoin_adjoin, ← ih]
    by_cases hc : c = '\''
    · -- The quotes are closed, and opened again after one quote between double quotes.
      subst hc
      rw [wordsFrom_singleQuote]
      show adjoin .nil (wordsFrom escape false ('"' :: '\'' :: '"' :: '\'' :: _)) = _
      rw [wordsFrom_doubleQuote, Bool.not_false,
        wordsFrom_char (by simp) (by decide) hescape.symm (by decide), wordsFrom_doubleQuote,
        Mark.adjoin_adjoin, Mark.adjoin_adjoin, Mark.adjoin_adjoin]
      rfl
    · rw [Shell.escapeSingle, if_neg hc, List.singleton_append, wordsFrom_singleQuote, wordsFrom_singleQuote,
        Mark.adjoin_adjoin, List.takeWhile_cons_of_pos (by simpa using hc),
        List.dropWhile_cons_of_pos (by simpa using hc)]
      rfl

theorem wordsFrom_singleQuoted (hescape : escape ≠ '\'') (t rest : Text) :
    wordsFrom escape false (Shell.singleQuoted t ++ rest) =
      adjoin (literal t) (wordsFrom escape false rest) := by
  rw [← wordsFrom_escapeSingle hescape]
  simp [Shell.singleQuoted]

theorem wordsFrom_quote (hescape : escape = '\\' ∨ escape = '\x60') (t rest : Text) :
    wordsFrom escape false (Shell.quote t ++ rest) = adjoin (literal t) (wordsFrom escape false rest) := by
  have hplain : Shell.isPlain escape = false := by rcases hescape with rfl | rfl <;> decide
  have hsingle : escape ≠ '\'' := by rcases hescape with rfl | rfl <;> decide
  unfold Shell.quote
  split
  · next hnil =>
    subst hnil
    exact wordsFrom_singleQuoted hsingle [] rest
  · next hne =>
    split
    · next h => exact wordsFrom_plain hplain (List.all_eq_true.1 h) hne rest
    · exact wordsFrom_singleQuoted hsingle t rest

/-! ## Words -/

/-- A stretch of a word is read as itself. A reference is written between double quotes. -/
theorem wordsFrom_segment (hescape : escape = '\\' ∨ escape = '\x60') {s : Segment}
    (hnamed : s.word.named = true) (hunmodified : s.word.unmodified = true) (rest : Text) :
    wordsFrom escape false (s.render Shell.quote ++ rest) =
      adjoin s.word (wordsFrom escape false rest) := by
  cases s with
  | literal t => exact wordsFrom_quote hescape t rest
  | var name =>
    have hdollar : escape ≠ '$' := by rcases hescape with rfl | rfl <;> decide
    have hname : isName name = true := by simpa [Segment.word, named, names] using hnamed
    have htext : (Segment.var name).render Shell.quote ++ rest =
        '"' :: (Shell.reference name [] ++ '"' :: rest) := by
      simp [Segment.render]
    rw [htext, wordsFrom_doubleQuote, wordsFrom_reference hdollar hname,
      wordsFrom_doubleQuote, Mark.adjoin_adjoin, Mark.adjoin_adjoin]
    rfl
  | cond name choice arg => cases hunmodified

theorem wordsFrom_toShell (hescape : escape = '\\' ∨ escape = '\x60') {w : Word} (hnamed : w.named = true)
    (hunmodified : w.unmodified = true) (rest : Text) :
    wordsFrom escape false (w.toShell ++ rest) = adjoin w (wordsFrom escape false rest) := by
  rw [toShell, render]
  split
  · next hempty =>
    obtain rfl : w = .nil := by
      cases w with
      | nil => rfl
      | _ => cases hempty
    exact wordsFrom_quote hescape [] rest
  · next hne =>
    obtain ⟨hword, -⟩ := w.segments_spec
    have hsegment : ∀ s ∈ w.segments, ∀ rest, wordsFrom escape false (s.render Shell.quote ++ rest) =
        adjoin s.word (wordsFrom escape false rest) := by
      intro s hs rest
      have hs : s.word ∈ w.segments.map Segment.word := List.mem_map_of_mem hs
      rw [← hword] at hnamed hunmodified
      exact wordsFrom_segment hescape (of_mem_concat named_append hs hnamed)
        (of_mem_concat unmodified_append hs hunmodified) rest
    have hsegments : w.segments ≠ [] := by
      intro hnil
      rw [hnil] at hword
      exact hne (by rw [← hword]; rfl)
    rw [wordsFrom_flatMap hsegment hsegments, hword]

/-- Words that were written as shell words and joined are read as they were. -/
theorem lexAll_join_toShell (hescape : escape = '\\' ∨ escape = '\x60') {ws : List Word}
    (hws : ∀ w ∈ ws, w.named = true ∧ w.unmodified = true) :
    lexAll escape (Text.join [' '] (ws.map toShell)) = ws := by
  induction ws with
  | nil =>
    rw [List.map_nil, Text.join, lexAll_eq, wordsFrom_nil]
    rfl
  | cons w ws ih =>
    obtain ⟨⟨hnamed, hunmodified⟩, hws⟩ := List.forall_mem_cons.1 hws
    have hread := wordsFrom_toShell hescape hnamed hunmodified
    by_cases hnil : ws = []
    · subst hnil
      have hlast := hread []
      rw [List.append_nil, wordsFrom_nil] at hlast
      rw [List.map_singleton, Text.join, lexAll_eq, hlast]
      exact congrArg (fun v => [v]) (append_nil w)
    · rw [List.map_cons, Text.join_cons (by simpa using hnil), List.append_assoc, List.singleton_append,
        lexAll_eq, hread, wordsFrom_blank (by decide), ih hws]
      exact congrArg (· :: ws) (append_nil w)

end Word

open Shell (changesState joinWords lastingCommands precedesName tokens)

/-- The two readers undo the quoting. Words whose references have names and no modifiers, written as shell
words and joined, are read as the words that they were, with either escape character. Texts that were quoted
and joined are the tokens of the line, whatever characters they have; so the line acts on the shell if and only
if the first text that may not stand before the name of a command is a lasting one, or if there is none and one
of the texts is an assignment. -/
theorem readers_undo_quoting :
    (∀ escape, escape = '\\' ∨ escape = '\x60' → ∀ ws : List Word,
      (∀ w ∈ ws, w.named = true ∧ w.unmodified = true) →
      Word.lexAll escape (Text.join [' '] (ws.map Word.toShell)) = ws) ∧
    ∀ args : List Text, tokens (joinWords args) = args.map .word ∧
      (changesState (joinWords args) = true ↔
        (∃ name rest, args.dropWhile precedesName = name :: rest ∧ name ∈ lastingCommands) ∨
          args.dropWhile precedesName = [] ∧ ∃ arg ∈ args, Shell.isAssignment arg = true) := by
  refine ⟨?_, ?_⟩
  · intro escape hescape ws hws
    exact Word.lexAll_join_toShell hescape hws
  · intro args
    exact ⟨Shell.tokens_joinWords args, Shell.changesState_joinWords_iff args⟩

/-- Quotes of both kinds, an escape character, a reference between characters and an empty word. The
assignments before `cd` hide nothing. -/
theorem readers_undo_quoting_quotes :
    let reference := Word.literal "it's \"".toList ++ .var "HOME".toList (.literal "\x60\\$".toList)
    Word.lexAll '\x60' (Text.join [' '] ([reference, .nil].map Word.toShell)) = [reference, .nil] ∧
      tokens (joinWords ["A=';".toList, [], "&&\n".toList]) =
        [.word "A=';".toList, .word [], .word "&&\n".toList] ∧
      changesState (joinWords ["then".toList, "A=';".toList, "cd".toList, "$A".toList]) = true := by
  intro reference
  obtain ⟨hwords, hargs⟩ := readers_undo_quoting
  refine ⟨hwords '\x60' (.inr rfl) [reference, .nil] ?_, (hargs _).1, (hargs _).2.2 (.inl ?_)⟩
  · exact List.forall_mem_cons.2 ⟨by decide, List.forall_mem_singleton.2 (by decide)⟩
  · exact ⟨"cd".toList, ["$A".toList], by decide, by decide⟩

end BuildScript
