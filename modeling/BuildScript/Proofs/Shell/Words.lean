import BuildScript.Proofs.Shell.Scan
import BuildScript.Shell.Quote

/-!
# Words of a command line

A line that ends outside its quotes can be followed by anything: what stands behind it is scanned as if it
came first (`EndsBare.scan_append`). So an operator or a blank cuts the tokens where it cuts the text. Quoted
text is such a line, and it is one word; the words that were quoted and joined are the tokens again
(`tokens_joinWords`). Which of them is searched for among the lasting commands is then a matter of the words
alone (`changesState_joinWords_iff`).
-/

namespace BuildScript.Shell

variable {a t : Text} {c : Char}

/-! ## Where a line can be cut -/

/-- Whether a line ends outside quotes, and not behind a backslash that protects nothing. -/
def EndsBare (line : Text) : Prop := Mode.start.run line = Mode.start

instance (line : Text) : Decidable (EndsBare line) :=
  inferInstanceAs (Decidable (Mode.start.run line = Mode.start))

/-- Whether a character ends the word before it, outside quotes. -/
def isBreak (c : Char) : Bool := isOperator c || isBlank c

theorem endsBare_nil : EndsBare [] := rfl

theorem EndsBare.append {b : Text} (ha : EndsBare a) (hb : EndsBare b) : EndsBare (a ++ b) := by
  rw [EndsBare, Mode.run_append, ha]
  exact hb

theorem EndsBare.scan_eq (ha : EndsBare a) : scan .none a = Mode.start.emits a := by
  have hend : (Mode.start.run a).finish = [] := by
    rw [ha]
    rfl
  rw [Shell.scan_eq, hend, List.append_nil]

theorem EndsBare.scan_append (ha : EndsBare a) (b : Text) :
    scan .none (a ++ b) = scan .none a ++ scan .none b := by
  rw [ha.scan_eq, Shell.scan_eq .none (a ++ b), Shell.scan_eq .none b, Mode.emits_append, Mode.run_append,
    ha, List.append_assoc]

/-- Outside quotes, a character that is no quote and no backslash leaves the scan where it is. -/
theorem Mode.start_bare (hc : "\\'\"".toList.contains c = false) :
    start.emit c = [.ofBare c] ∧ start.next c = start := by
  have hne : ∀ d ∈ "\\'\"".toList, c ≠ d := by
    rintro d hd rfl
    rw [List.contains_iff_mem.2 hd] at hc
    cases hc
  have hbackslash := hne '\\' (by decide)
  have hsingle := hne '\'' (by decide)
  have hdouble := hne '"' (by decide)
  simp [emit, next, hbackslash, hsingle, hdouble]

theorem isBreak_of_isOperator (hc : isOperator c = true) : isBreak c = true := by
  rw [isBreak, hc, Bool.true_or]

theorem isBreak_of_isBlank (hc : isBlank c = true) : isBreak c = true := by
  rw [isBreak, hc, Bool.or_true]

theorem isBreak_cases (hc : isBreak c = true) :
    isOperator c = true ∨ isBlank c = true ∧ c ≠ '\n' := by
  rw [isBreak, Bool.or_eq_true] at hc
  by_cases hfeed : c = '\n'
  · exact .inl (by rw [hfeed]; rfl)
  · exact hc.imp_right fun hblank => ⟨hblank, hfeed⟩

theorem Mode.start_break (hc : isBreak c = true) : start.emit c = [.ofBare c] ∧ start.next c = start := by
  apply start_bare
  rw [Bool.eq_false_iff]
  intro hmem
  have hnone : "\\'\"".toList.any isBreak = false := by decide
  exact List.any_eq_false.1 hnone c (List.contains_iff_mem.1 hmem) hc

/-- A blank that is no line feed separates words and nothing else. -/
theorem ofBare_of_isBlank (hc : isBlank c = true) (hfeed : c ≠ '\n') : Mark.ofBare c = .blank := by
  have hoperator : isOperator c = false := by
    rw [Bool.eq_false_iff]
    intro hoperator
    have hnone : ";&|()".toList.any isBlank = false := by decide
    apply List.any_eq_false.1 hnone c _ hc
    simpa [isOperator, hfeed, or_assoc] using hoperator
  rw [Mark.ofBare, hoperator, hc]
  rfl

theorem endsBare_break (hc : isBreak c = true) : EndsBare [c] := (Mode.start_break hc).2

theorem scan_break (hc : isBreak c = true) (b : Text) : scan .none (c :: b) = .ofBare c :: scan .none b := by
  rw [← List.singleton_append, (endsBare_break hc).scan_append, (endsBare_break hc).scan_eq,
    Mode.emits_singleton, (Mode.start_break hc).1]
  rfl

theorem tokens_cons_op (hc : isOperator c = true) (b : Text) : tokens (c :: b) = .op :: tokens b := by
  rw [tokens_eq, scan_break (isBreak_of_isOperator hc), Mark.ofBare, if_pos hc, tokensOf_op]
  rfl

theorem tokens_cons_blank (hc : isBlank c = true) (hfeed : c ≠ '\n') (b : Text) :
    tokens (c :: b) = tokens b := by
  rw [tokens_eq, scan_break (isBreak_of_isBlank hc), ofBare_of_isBlank hc hfeed, tokensOf_blank]
  rfl

/-- A line is cut before an operator or a blank. -/
theorem EndsBare.tokens_append (ha : EndsBare a) (hc : isBreak c = true) (b : Text) :
    tokens (a ++ c :: b) = tokens a ++ tokens (c :: b) := by
  have hmark : (Mark.ofBare c).isPart = false := by
    rcases isBreak_cases hc with hoperator | ⟨hblank, hfeed⟩
    · rw [Mark.ofBare, if_pos hoperator]
      rfl
    · rw [ofBare_of_isBlank hblank hfeed]
      rfl
  rw [tokens_eq, ha.scan_append, scan_break hc, tokensOf_append hmark, ← scan_break hc]
  rfl

theorem EndsBare.tokens_append_op (ha : EndsBare a) (hc : isOperator c = true) (b : Text) :
    tokens (a ++ c :: b) = tokens a ++ .op :: tokens b := by
  rw [ha.tokens_append (isBreak_of_isOperator hc), tokens_cons_op hc]

/-! ## Quoted text -/

/-- Marks that are parts of one word, whose text is `t`. -/
structure Spells (ms : List Mark) (t : Text) : Prop where
  parts : ∀ m ∈ ms, m.isPart = true
  text : textOf ms = t

theorem Spells.append {ms ns : List Mark} {s t : Text} (hms : Spells ms s) (hns : Spells ns t) :
    Spells (ms ++ ns) (s ++ t) := by
  refine ⟨?_, by rw [textOf_append, hms.text, hns.text]⟩
  intro m hm
  exact (List.mem_append.1 hm).elim (hms.parts m) (hns.parts m)

/-- Between single quotes a text stands for itself, however often the quotes are closed and opened again. -/
theorem Mode.single_escapeSingle (t : Text) :
    Mode.run ⟨.single, false⟩ (t.flatMap escapeSingle) = ⟨.single, false⟩ ∧
      Spells (Mode.emits ⟨.single, false⟩ (t.flatMap escapeSingle)) t := by
  induction t with
  | nil => exact ⟨rfl, by simp [emits], rfl⟩
  | cons c rest ih =>
    obtain ⟨hrun, hspells⟩ := ih
    have hfirst : Mode.run ⟨.single, false⟩ (escapeSingle c) = ⟨.single, false⟩ ∧
        Spells (Mode.emits ⟨.single, false⟩ (escapeSingle c)) [c] := by
      by_cases hc : c = '\''
      · subst hc
        exact ⟨by decide, by decide, by decide⟩
      · rw [escapeSingle, if_neg hc, emits_singleton]
        simp only [emit, if_neg hc]
        refine ⟨by simp [run, next, hc], ?_, rfl⟩
        intro m hm
        rw [List.mem_singleton.1 hm]
        rfl
    rw [List.flatMap_cons, run_append, emits_append, hfirst.1]
    exact ⟨hrun, hfirst.2.append hspells⟩

theorem isBlank_of_isPlain (hc : isPlain c = true) : isBlank c = false := by
  rw [isPlain, Bool.or_eq_true] at hc
  rcases hc with hc | hc
  · exact isBlank_of_isNameChar (by rw [isNameChar, hc, Bool.true_or])
  · have hall : "-_=./:@".toList.all (fun d => !isBlank d) = true := by decide
    simpa using List.all_eq_true.1 hall c (List.contains_iff_mem.1 hc)

/-- A character that needs no quotes is part of the word that it stands in. -/
theorem start_plain (hc : isPlain c = true) :
    Mode.start.emit c = [.part [c]] ∧ Mode.start.next c = Mode.start := by
  have hnone : "\\'\";&|()\n".toList.any isPlain = false := by decide
  have hnotMem : c ∉ "\\'\";&|()\n".toList := fun hmem => List.any_eq_false.1 hnone c hmem hc
  have hbare : "\\'\"".toList.contains c = false := by
    rw [Bool.eq_false_iff]
    exact fun hmem => hnotMem (List.mem_append_left ";&|()\n".toList (List.contains_iff_mem.1 hmem))
  have hoperator : isOperator c = false := by
    rw [Bool.eq_false_iff]
    intro hmem
    apply hnotMem
    simpa [isOperator, or_assoc] using Or.inr (Or.inr (Or.inr hmem))
  obtain ⟨hemit, hnext⟩ := Mode.start_bare hbare
  refine ⟨?_, hnext⟩
  rw [hemit, Mark.ofBare, hoperator, isBlank_of_isPlain hc]
  rfl

theorem endsBare_plain (ht : ∀ c ∈ t, isPlain c = true) :
    EndsBare t ∧ Spells (Mode.start.emits t) t := by
  induction t with
  | nil => exact ⟨rfl, by simp [Mode.emits], rfl⟩
  | cons c rest ih =>
    obtain ⟨hrest, hspells⟩ := ih fun d hd => ht d (List.mem_cons_of_mem _ hd)
    obtain ⟨hemit, hnext⟩ := start_plain (ht c List.mem_cons_self)
    have hfirst : Spells [.part [c]] [c] := ⟨by simp [Mark.isPart], rfl⟩
    rw [EndsBare, Mode.run_cons, Mode.emits_cons, hemit, hnext]
    exact ⟨hrest, hfirst.append hspells⟩

theorem endsBare_singleQuoted (t : Text) :
    EndsBare (singleQuoted t) ∧ Spells (Mode.start.emits (singleQuoted t)) t := by
  obtain ⟨hrun, hspells⟩ := Mode.single_escapeSingle t
  have hopen : Spells [.part []] [] := ⟨by simp [Mark.isPart], rfl⟩
  have hquoted : singleQuoted t = '\'' :: (t.flatMap escapeSingle ++ ['\'']) := rfl
  rw [hquoted, EndsBare, Mode.run_cons, Mode.emits_cons]
  show (⟨.single, false⟩ : Mode).run _ = _ ∧
    Spells ([.part []] ++ (⟨.single, false⟩ : Mode).emits _) t
  rw [Mode.run_append, Mode.emits_append, hrun]
  refine ⟨rfl, ?_⟩
  have hclosed := hopen.append (hspells.append hopen)
  rwa [List.nil_append, List.append_nil] at hclosed

/-- Quoted text is part of one word and leaves no quotes open. -/
theorem endsBare_quote (t : Text) : EndsBare (quote t) ∧ Spells (Mode.start.emits (quote t)) t := by
  unfold quote
  split
  · next h =>
    rw [h]
    exact endsBare_singleQuoted []
  · split
    · next h => exact endsBare_plain (List.all_eq_true.1 h)
    · exact endsBare_singleQuoted t

theorem tokens_quote (t : Text) : tokens (quote t) = [.word t] := by
  obtain ⟨hends, hspells⟩ := endsBare_quote t
  have hne : Mode.start.emits (quote t) ≠ [] := by
    intro hnil
    have ht : t = [] := by
      rw [← hspells.text, hnil]
      rfl
    subst ht
    exact absurd hnil (by decide)
  rw [tokens_eq, hends.scan_eq, ← List.append_nil (Mode.start.emits _),
    tokensOf_parts hspells.parts hne rfl, hspells.text]
  rfl

/-! ## Quoted words in a row -/

theorem joinWords_cons {words : List Text} (h : words ≠ []) (w : Text) :
    joinWords (w :: words) = quote w ++ ' ' :: joinWords words := by
  rw [joinWords, List.map_cons, Text.join_cons (by simpa using h), List.append_assoc]
  rfl

theorem endsBare_joinWords (words : List Text) : EndsBare (joinWords words) := by
  induction words with
  | nil => exact endsBare_nil
  | cons w rest ih =>
    by_cases hrest : rest = []
    · subst hrest
      exact (endsBare_quote w).1
    · rw [joinWords_cons hrest, ← List.singleton_append]
      exact (endsBare_quote w).1.append ((endsBare_break (by decide)).append ih)

/-- Words that were quoted and joined are the tokens of the line. -/
theorem tokens_joinWords (words : List Text) : tokens (joinWords words) = words.map .word := by
  induction words with
  | nil => rfl
  | cons w rest ih =>
    by_cases hrest : rest = []
    · subst hrest
      exact tokens_quote w
    · rw [joinWords_cons hrest, (endsBare_quote w).1.tokens_append (by decide),
        tokens_cons_blank (by decide) (by decide), tokens_quote, ih]
      rfl

/-! ## Words that name a command -/

/-- Whether a word may stand before the name of a command. -/
def precedesName (w : Text) : Bool := introducers.contains w || isAssignment w

theorem not_isAssignment_of_introducers {w : Text} (h : introducers.contains w = true) :
    isAssignment w = false := by
  have hall : introducers.all (fun v => !isAssignment v) = true := by decide
  simpa using List.all_eq_true.1 hall w (List.contains_iff_mem.1 h)

/-- Behind the name of a command no word is looked at. -/
theorem changesStateFrom_arguments (words : List Text) :
    changesStateFrom false false (words.map .word) = false := by
  induction words with
  | nil => rfl
  | cons w rest ih => exact ih

/-- Among words alone, the first one that may not stand before a name decides. If there is none, it is the
assignments that do. -/
theorem changesStateFrom_words (assigned : Bool) (words : List Text) :
    changesStateFrom true assigned (words.map .word) =
      match words.dropWhile precedesName with
      | [] => assigned || words.any isAssignment
      | name :: _ => lastingCommands.contains name := by
  induction words generalizing assigned with
  | nil => simp [changesStateFrom]
  | cons w rest ih =>
    rw [List.map_cons, changesStateFrom, if_pos rfl]
    by_cases hintroducer : introducers.contains w = true
    · have hw : precedesName w = true := by rw [precedesName, hintroducer, Bool.true_or]
      rw [if_pos hintroducer, ih, List.dropWhile_cons_of_pos hw, List.any_cons,
        not_isAssignment_of_introducers hintroducer, Bool.false_or]
    · rw [if_neg hintroducer]
      by_cases hassignment : isAssignment w = true
      · have hw : precedesName w = true := by rw [precedesName, hassignment, Bool.or_true]
        rw [if_pos hassignment, ih, List.dropWhile_cons_of_pos hw, List.any_cons, hassignment,
          Bool.true_or, Bool.or_true]
      · have hw : ¬precedesName w = true := by
          rw [precedesName, Bool.or_eq_true]
          exact not_or.2 ⟨hintroducer, hassignment⟩
        rw [if_neg hassignment, List.dropWhile_cons_of_neg hw, changesStateFrom_arguments]
        simp

theorem changesState_joinWords_iff (words : List Text) :
    changesState (joinWords words) = true ↔
      (∃ name rest, words.dropWhile precedesName = name :: rest ∧ name ∈ lastingCommands) ∨
        words.dropWhile precedesName = [] ∧ ∃ w ∈ words, isAssignment w = true := by
  rw [changesState, tokens_joinWords, changesStateFrom_words]
  cases words.dropWhile precedesName with
  | nil => simp
  | cons name rest => simp

end BuildScript.Shell
