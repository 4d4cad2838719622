import BuildScript.Proofs.Posix.SimpleCommand

/-!
# Commands that act on the shell

A simple command acts on the shell that runs it if its name is that of such a command, or if it assigns
variables and has no name (`actsOnShell`). Words of the grammar, such as `if`, may stand before it.

A simple command has its own stretch of the line, between control operators (`exists_of_mem_commandsOf`), and
each of its words has its stretch of that, with a blank, an operator or the end behind it
(`exists_of_lexemes_eq_cons`). If only blanks stand between its first words, the command is told by these words
one after the other (`hasPlainHead`).
-/

namespace BuildScript.Posix

/-! ## Simple commands and their effect -/

/-- The words that introduce a command. -/
def introductions : List Text :=
  ["if", "then", "else", "elif", "do", "while", "until", "!", "\x7b"].map String.toList

/-- Whether a word introduces a command. -/
def introduces (word : List Mark) : Bool := (bareText? word).any introductions.contains

/-- The parts of a command behind the words that introduce it. -/
def dropIntroductions : List Item → List Item
  | .word w :: rest => if introduces w then dropIntroductions rest else .word w :: rest
  | items => items

/-- The text of a word in which nothing is expanded, without its quotes. -/
def literalText? : List Mark → Option Text
  | [] => some []
  | .char _ c :: rest => (literalText? rest).map (c :: ·)
  | .quotes :: rest => literalText? rest
  | _ => none

def Item.isWord : Item → Bool
  | .word _ => true
  | .redirection _ _ => false

/-- Whether a command acts on the shell that runs it: by its name, or because it has assignments and no name.
`assigned` tells that there are assignments before its parts. -/
def actsFrom (assigned : Bool) (items : List Item) : Bool :=
  match argumentsOf items with
  | [] => assigned || items.any Item.isWord
  | name :: _ => (literalText? name).any Shell.lastingCommands.contains

/-- Whether a simple command acts on the shell that runs it. -/
def actsOnShell (items : List Item) : Bool := actsFrom false (dropIntroductions items)

/-- Whether the marks of a simple command are those of one that acts on the shell. -/
def acts (command : List Mark) : Bool := (items? (lexemes command)).any actsOnShell

/-- Whether a line has a simple command, as a shell reads it, that acts on the shell. -/
def actsIn (line : Text) : Bool := (Reader.start.run line).marks?.any fun ms => (commandsOf ms).any acts

/-! ## Words that are seen at once -/

mutual

/-- Whether a mark has a blank that is not quoted in it. A command in parentheses hides its blanks. -/
def Mark.splits : Mark → Bool
  | .char false c => isBlank c
  | .param false _ _ arg => splits arg
  | .backquoted false body => body.any isBlank
  | _ => false

/-- Whether one of some marks has a blank that is not quoted in it. -/
def splits : List Mark → Bool
  | [] => false
  | m :: marks => m.splits || splits marks

end

/-- Whether a command begins with words, each with a blank or the end behind it, up to its name, and none of
its assignments has a blank that is not quoted. -/
def hasPlainHead : List Lexeme → Bool
  | [] => true
  | .op _ :: _ => false
  | .word w glued :: rest =>
    if introduces w then !glued && hasPlainHead rest
    else if isAssignment w then !glued && !splits w && hasPlainHead rest
    else !glued

/-- Whether the start of a simple command is plain. -/
def startsPlain (command : List Mark) : Bool := hasPlainHead (lexemes command)

/-! ## Commands in a line -/

/-- Whether marks begin with a control operator, or are none. -/
def Breaks (ms : List Mark) : Prop := ms = [] ∨ ∃ c rest, ms = .op c :: rest ∧ isRedirection c = false

theorem splitControls_fst (ms : List Mark) :
    ∃ post, ms = (splitControls ms).1 ++ post ∧ Breaks post := by
  fun_induction splitControls ms with
  | case1 => exact ⟨[], rfl, .inl rfl⟩
  | case2 c d rest hpair first others heq ih =>
    rw [heq] at ih
    obtain ⟨post, hpost, hbreaks⟩ := ih
    exact ⟨post, by rw [hpost]; rfl, hbreaks⟩
  | case3 c d rest hpair first others heq hredirection ih =>
    rw [heq] at ih
    obtain ⟨post, hpost, hbreaks⟩ := ih
    exact ⟨post, by rw [hpost]; rfl, hbreaks⟩
  | case4 c d rest hpair first others heq hredirection ih =>
    exact ⟨_, rfl, .inr ⟨c, _, rfl, Bool.eq_false_iff.2 hredirection⟩⟩
  | case5 c rest hop first others heq hredirection ih =>
    rw [heq] at ih
    obtain ⟨post, hpost, hbreaks⟩ := ih
    exact ⟨post, by rw [hpost]; rfl, hbreaks⟩
  | case6 c rest hop first others heq hredirection ih =>
    exact ⟨_, rfl, .inr ⟨c, _, rfl, Bool.eq_false_iff.2 hredirection⟩⟩
  | case7 m rest hop hpair first others heq ih =>
    rw [heq] at ih
    obtain ⟨post, hpost, hbreaks⟩ := ih
    exact ⟨post, by rw [hpost]; rfl, hbreaks⟩

/-- Whether marks stand in a line behind a control operator, up to the next one or the end. -/
def BehindControl (ms seg : List Mark) : Prop :=
  ∃ before c post, ms = before ++ .op c :: (seg ++ post) ∧ isRedirection c = false ∧ Breaks post

theorem BehindControl.cons {ms seg : List Mark} (h : BehindControl ms seg) (m : Mark) : BehindControl (m :: ms) seg := by
  obtain ⟨before, c, post, rfl, hc, hpost⟩ := h
  exact ⟨m :: before, c, post, rfl, hc, hpost⟩

theorem splitControls_snd {ms seg : List Mark} (h : seg ∈ (splitControls ms).2) : BehindControl ms seg := by
  -- A control operator cuts off what stands behind it; every other mark only moves the cuts.
  have hcut : ∀ {c rest}, isRedirection c = false →
      (seg ∈ (splitControls rest).2 → BehindControl rest seg) →
      seg ∈ (splitControls rest).1 :: (splitControls rest).2 → BehindControl (.op c :: rest) seg := by
    intro c rest hc ih hmem
    rcases List.mem_cons.1 hmem with rfl | hmem
    · obtain ⟨post, hpost, hbreaks⟩ := splitControls_fst rest
      exact ⟨[], c, post, by rw [← hpost]; rfl, hc, hbreaks⟩
    · exact (ih hmem).cons _
  fun_induction splitControls ms with
  | case1 => cases h
  | case2 c d rest hpair first others heq ih =>
    rw [heq] at ih
    exact ((ih h).cons _).cons _
  | case3 c d rest hpair first others heq hredirection ih =>
    rw [heq] at ih
    exact (ih h).cons _
  | case4 c d rest hpair first others heq hredirection ih =>
    exact hcut (Bool.eq_false_iff.2 hredirection) ih (by rw [heq]; exact h)
  | case5 c rest hop first others heq hredirection ih =>
    rw [heq] at ih
    exact (ih h).cons _
  | case6 c rest hop first others heq hredirection ih =>
    exact hcut (Bool.eq_false_iff.2 hredirection) ih (by rw [heq]; exact h)
  | case7 m rest hop hpair first others heq ih =>
    rw [heq] at ih
    exact (ih h).cons _

/-- A simple command stands between control operators or at an end of the line. -/
theorem exists_of_mem_commandsOf {ms seg : List Mark} (h : seg ∈ commandsOf ms) :
    ∃ pre post, ms = pre ++ seg ++ post ∧ Breaks post ∧
      (pre = [] ∨ ∃ before c, pre = before ++ [.op c] ∧ isRedirection c = false) := by
  rcases List.mem_cons.1 h with rfl | hmem
  · obtain ⟨post, hpost, hbreaks⟩ := splitControls_fst ms
    exact ⟨[], post, hpost, hbreaks, .inl rfl⟩
  · obtain ⟨before, c, post, hms, hc, hbreaks⟩ := splitControls_snd hmem
    refine ⟨before ++ [.op c], post, ?_, hbreaks, .inr ⟨before, c, rfl, hc⟩⟩
    rw [hms]
    simp

/-! ## Words in a command -/

/-- The word that marks begin with, and what stands behind it. -/
theorem exists_of_collectLexemes {ms w : List Mark} {glued : Bool}
    (h : (collectLexemes ms).1 = some (w, glued)) :
    ∃ after, ms = w ++ after ∧ IsWord w ∧ (collectLexemes after).1 = none ∧
      (collectLexemes after).2 = (collectLexemes ms).2 ∧ glued = startsWithOp after := by
  fun_induction collectLexemes ms generalizing w glued with
  | case1 | case2 | case3 | case4 | case5 => cases h
  | case6 m rest hblank _ hop lexemes marks glued' heq ih =>
    cases h
    rw [heq] at ih
    obtain ⟨after, hrest, hword, hnone, hlexemes, hglued⟩ := ih rfl
    refine ⟨after, by rw [hrest]; rfl, ⟨List.cons_ne_nil _ _, ?_⟩, hnone, hlexemes, hglued⟩
    exact List.forall_mem_cons.2 ⟨isPart_of_ne hblank hop, hword.2⟩
  | case7 m rest hblank _ hop lexemes heq ih =>
    cases h
    have hword : IsWord [m] :=
      ⟨List.cons_ne_nil _ _, List.forall_mem_singleton.2 (isPart_of_ne hblank hop)⟩
    exact ⟨rest, rfl, hword, by rw [heq], by rw [heq], rfl⟩

theorem lexemes_op (c : Char) (rest : List Mark) : ∃ t ls, lexemes (.op c :: rest) = .op t :: ls := by
  unfold lexemes
  cases rest with
  | nil => exact ⟨_, _, rfl⟩
  | cons m rest =>
    cases m with
    | op d =>
      rw [collectLexemes]
      split <;> exact ⟨_, _, rfl⟩
    | _ => exact ⟨_, _, rfl⟩

theorem exists_collectLexemes_of_isPart {m : Mark} (hm : m.isPart = true) (rest : List Mark) :
    ∃ w glued, (collectLexemes (m :: rest)).1 = some (w, glued) := by
  rw [collectLexemes_cons hm]
  split <;> exact ⟨_, _, rfl⟩

/-- Marks whose first lexeme is a word. -/
theorem exists_of_lexemes_eq_cons {ms w : List Mark} {glued : Bool} {ls : List Lexeme}
    (h : lexemes ms = .word w glued :: ls) :
    ∃ blanks after, ms = blanks ++ (w ++ after) ∧ (∀ m ∈ blanks, m = .blank) ∧ IsWord w ∧
      (collectLexemes after).1 = none ∧ lexemes after = ls ∧ glued = startsWithOp after := by
  induction ms with
  | nil => cases h
  | cons m rest ih =>
    cases hm : m.isPart with
    | true =>
      obtain ⟨v, g, hfirst⟩ := exists_collectLexemes_of_isPart hm rest
      obtain ⟨after, hms, hword, hnone, hlexemes, hglued⟩ := exists_of_collectLexemes hfirst
      rw [lexemes, hfirst, ← hlexemes] at h
      cases h
      refine ⟨[], after, hms, by simp, hword, hnone, ?_, hglued⟩
      rw [lexemes, hnone]
      rfl
    | false =>
      cases m with
      | blank =>
        obtain ⟨blanks, after, rfl, hblanks, hrest⟩ := ih h
        exact ⟨.blank :: blanks, after, rfl, List.forall_mem_cons.2 ⟨rfl, hblanks⟩, hrest⟩
      | op c =>
        obtain ⟨t, ls', hop⟩ := lexemes_op c rest
        rw [hop] at h
        cases h
      | _ => cases hm

theorem eq_blank_of_lexemes_eq_nil {ms : List Mark} (h : lexemes ms = []) : ∀ m ∈ ms, m = .blank := by
  induction ms with
  | nil => simp
  | cons m rest ih =>
    cases hm : m.isPart with
    | true =>
      obtain ⟨v, g, hfirst⟩ := exists_collectLexemes_of_isPart hm rest
      rw [lexemes, hfirst] at h
      cases h
    | false =>
      cases m with
      | blank => exact List.forall_mem_cons.2 ⟨rfl, ih h⟩
      | op c =>
        obtain ⟨t, ls, hop⟩ := lexemes_op c rest
        rw [hop] at h
        cases h
      | _ => cases hm

end BuildScript.Posix
