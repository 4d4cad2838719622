import BuildScript.Proofs.Shell.Agreement

/-!
# Commands that the scan finds

A simple command of a line that acts on the shell is found among the tokens of the scan. The words at its
start are tokens that tell the same as the shell reads (`Shown.textOf_literal`, `Shown.exists_assignment`), the
search goes from one to the next (`changesState_of_actsOnShell`), and no matter what stands before a control
operator, it starts anew behind it (`changesState_of_mem_commandsOf`).
-/

namespace BuildScript.Posix

open Shell (tokensOf textOf changesStateFrom)

/-! ## Words at the start of a command -/

theorem textOf_closings (n : Nat) : textOf (closings n) = [] := by
  induction n with
  | zero => rfl
  | succ n ih =>
    have hsucc : closings (n + 1) = [.part []] ++ closings n := rfl
    rw [hsucc, Shell.textOf_append, ih]
    rfl

theorem literalText?_of_bareText? {w : List Mark} {t : Text} (h : bareText? w = some t) :
    literalText? w = some t := by
  induction w generalizing t with
  | nil => exact h
  | cons m rest ih =>
    match m with
    | .char false c =>
      obtain ⟨u, hu, rfl⟩ := Option.map_eq_some_iff.1 h
      rw [literalText?, ih hu]
      rfl
    | .char true _ | .quotes | .param _ _ _ _ | .command _ _ | .backquoted _ _ | .blank | .op _ => cases h

/-- Whether the scan has a character outside quotes as part of a word. -/
def IsWordChar (c : Char) : Prop := Shell.Mark.ofBare c = .part [c] ∧ c ≠ '\\'

instance (c : Char) : Decidable (IsWordChar c) := inferInstanceAs (Decidable (_ ∧ _))

theorem Shows.textOf_char {q : Bool} {c : Char} {ps : List Shell.Mark} (h : Shows (.char q c) ps)
    (hc : IsWordChar c) : (∀ p ∈ ps, p.isPart = true) ∧ textOf ps = [c] := by
  have hone : ∀ n, (∀ p ∈ Shell.Mark.part [c] :: closings n, p.isPart = true) ∧
      textOf (.part [c] :: closings n) = [c] := by
    intro n
    refine ⟨List.forall_mem_cons.2 ⟨rfl, isPart_closings⟩, ?_⟩
    rw [← List.singleton_append, Shell.textOf_append, textOf_closings]
    rfl
  cases q with
  | false =>
    obtain ⟨n, rfl⟩ := h
    rw [hc.1]
    exact hone n
  | true =>
    obtain ⟨n, rfl | ⟨hback, -⟩⟩ := h
    · exact hone n
    · exact absurd hback hc.2

/-- A word in which nothing is expanded is one token, its text. -/
theorem Shown.textOf_literal {w : List Mark} {ps : List Shell.Mark} {t : Text} (h : Shown w ps)
    (hw : literalText? w = some t) (ht : ∀ c ∈ t, IsWordChar c) :
    (∀ p ∈ ps, p.isPart = true) ∧ textOf ps = t := by
  induction w generalizing ps t with
  | nil =>
    obtain ⟨_, hall, rfl⟩ := h
    cases hall
    cases hw
    exact ⟨by simp, rfl⟩
  | cons m rest ih =>
    obtain ⟨qs, rs, rfl, hm, hrest⟩ := h.exists_of_cons
    match m with
    | .char q c =>
      obtain ⟨u, hu, rfl⟩ := Option.map_eq_some_iff.1 hw
      obtain ⟨hc, hchars⟩ := List.forall_mem_cons.1 ht
      obtain ⟨hqs, htext⟩ := hm.textOf_char hc
      obtain ⟨hrs, htexts⟩ := ih hrest hu hchars
      exact ⟨List.forall_mem_append.2 ⟨hqs, hrs⟩, by rw [Shell.textOf_append, htext, htexts]; rfl⟩
    | .quotes =>
      obtain ⟨hrs, htexts⟩ := ih hrest hw ht
      obtain ⟨n, rfl⟩ := hm
      have hclosings : Shell.Mark.part [] :: closings n = closings (n + 1) := rfl
      rw [hclosings]
      exact ⟨List.forall_mem_append.2 ⟨isPart_closings, hrs⟩,
        by rw [Shell.textOf_append, textOf_closings, htexts]; rfl⟩
    | .param _ _ _ _ | .command _ _ | .backquoted _ _ | .blank | .op _ => cases hw

theorem exists_of_bareStart {w : List Mark} {t u : Text} (h : bareStart w = t ++ u) :
    ∃ after, w = t.map (.char false) ++ after := by
  induction t generalizing w with
  | nil => exact ⟨w, rfl⟩
  | cons c t ih =>
    match w, h with
    | .char false d :: rest, h =>
      rw [bareStart, List.cons_append, List.cons.injEq] at h
      obtain ⟨rfl, hrest⟩ := h
      obtain ⟨after, rfl⟩ := ih hrest
      exact ⟨after, rfl⟩

theorem literalText?_map_char (t : Text) : literalText? (t.map (.char false)) = some t :=
  literalText?_of_bareText? (bareText?_map_char t)

theorem isWordChar_of_isNameChar {c : Char} (h : isNameChar c = true) : IsWordChar c := by
  refine ⟨ofBare_of_isNameChar h, ?_⟩
  rintro rfl
  cases h

theorem splits_append (ms ns : List Mark) : splits (ms ++ ns) = (splits ms || splits ns) := by
  induction ms with
  | nil => rfl
  | cons m ms ih => rw [List.cons_append, splits, splits, ih, Bool.or_assoc]

/-- Steady marks are parts of a word up to their first operator. -/
theorem exists_of_steady {ps : List Shell.Mark} (h : steady ps = true) :
    ∃ parts rest, ps = parts ++ rest ∧ (∀ p ∈ parts, p.isPart = true) ∧
      (rest = [] ∨ ∃ more, rest = .op :: more) := by
  induction ps with
  | nil => exact ⟨[], [], rfl, by simp, .inl rfl⟩
  | cons p ps ih =>
    cases p with
    | blank => cases h
    | op => exact ⟨[], _, rfl, by simp, .inr ⟨ps, rfl⟩⟩
    | part t =>
      obtain ⟨parts, rest, rfl, hparts, hrest⟩ := ih h
      exact ⟨.part t :: parts, rest, rfl, List.forall_mem_cons.2 ⟨rfl, hparts⟩, hrest⟩

/-- A word that assigns a variable begins with a token that does. Only its end may be cut off, and only at an
operator. -/
theorem Shown.exists_assignment {w : List Mark} {ps : List Shell.Mark} (h : Shown w ps)
    (hword : ∀ m ∈ w, m.isPart = true) (hw : isAssignment w = true) (hsplits : splits w = false) :
    ∃ parts rest, ps = parts ++ rest ∧ parts ≠ [] ∧ (∀ p ∈ parts, p.isPart = true) ∧
      Shell.isAssignment (textOf parts) = true ∧ (rest = [] ∨ ∃ more, rest = .op :: more) := by
  unfold isAssignment at hw
  split at hw
  case h_2 => cases hw
  case h_1 name value hcut =>
    obtain ⟨hstart, hname⟩ := Text.cutAt_eq_some hcut
    rw [← List.singleton_append, ← List.append_assoc] at hstart
    obtain ⟨after, rfl⟩ := exists_of_bareStart hstart
    obtain ⟨qs, rs, rfl, hqs, hrs⟩ := h.exists_of_append
    rw [splits_append, Bool.or_eq_false_iff] at hsplits
    -- The name and the sign are shown as they are, and what stands behind them is steady.
    have hchars : ∀ c ∈ name ++ ['='], IsWordChar c := by
      intro c hc
      rcases List.mem_append.1 hc with hc | hc
      · exact isWordChar_of_isNameChar (isNameChar_of_mem_isName hw hc)
      · rw [List.mem_singleton.1 hc]
        decide
    obtain ⟨hfirst, htext⟩ := hqs.textOf_literal (literalText?_map_char _) hchars
    obtain ⟨parts, rest, rfl, hparts, hrest⟩ := exists_of_steady
      (hrs.steady (fun m hm => hword m (List.mem_append_right _ hm)) hsplits.2)
    have hassigns : Shell.isAssignment (textOf (qs ++ parts)) = true := by
      rw [Shell.textOf_append, htext, List.append_assoc, List.singleton_append, Shell.isAssignment,
        Text.cutAt_append hname]
      exact hw
    refine ⟨qs ++ parts, rest, (List.append_assoc _ _ _).symm, ?_,
      List.forall_mem_append.2 ⟨hfirst, hparts⟩, hassigns, hrest⟩
    intro hnil
    rw [hnil] at hassigns
    cases hassigns

/-! ## The start of a command -/

theorem Shown.eq_nil {ps : List Shell.Mark} (h : Shown [] ps) : ps = [] := by
  obtain ⟨_, hall, rfl⟩ := h
  cases hall
  rfl

/-- Blanks before a word make no tokens. -/
theorem Shown.tokensOf_blanks {blanks : List Mark} {ps : List Shell.Mark} (h : Shown blanks ps)
    (hblanks : ∀ m ∈ blanks, m = .blank) (rest : List Shell.Mark) :
    tokensOf (ps ++ rest) = tokensOf rest := by
  induction blanks generalizing ps with
  | nil => rw [h.eq_nil, List.nil_append]
  | cons m blanks ih =>
    obtain ⟨rfl, hothers⟩ := List.forall_mem_cons.1 hblanks
    obtain ⟨qs, rs, rfl, hm, hrest⟩ := h.exists_of_cons
    cases (hm : qs = [.blank])
    rw [List.append_assoc, List.singleton_append, Shell.tokensOf_blank]
    exact ih hrest hothers

/-- What may stand behind a command: nothing, or an operator. -/
def Ends (post : List Shell.Mark) : Prop := post = [] ∨ ∃ more, post = .op :: more

theorem Ends.collect {post : List Shell.Mark} (h : Ends post) : (Shell.collect post).1 = none := by
  obtain rfl | ⟨more, rfl⟩ := h <;> rfl

/-- Behind assignments the end of a command is enough. -/
theorem Ends.changesState {post : List Shell.Mark} (h : Ends post) :
    changesStateFrom true true (tokensOf post) = true := by
  obtain rfl | ⟨more, rfl⟩ := h
  · rfl
  · rw [Shell.tokensOf_op]
    rfl

/-- The first word of a command, and what is shown of it and behind it. -/
theorem Shown.exists_word {seg : List Mark} {ps : List Shell.Mark} (h : Shown seg ps) {w : List Mark}
    {ls : List Lexeme} (hlexemes : lexemes seg = .word w false :: ls) {post : List Shell.Mark}
    (hpost : Ends post) :
    ∃ after qs rs, lexemes after = ls ∧ IsWord w ∧ Shown w qs ∧ Shown after rs ∧
      (Shell.collect (rs ++ post)).1 = none ∧ tokensOf (ps ++ post) = tokensOf (qs ++ (rs ++ post)) := by
  obtain ⟨blanks, after, rfl, hblanks, hword, hnone, hafter, hglued⟩ := exists_of_lexemes_eq_cons hlexemes
  obtain ⟨bs, others, rfl, hbs, hothers⟩ := h.exists_of_append
  obtain ⟨qs, rs, rfl, hqs, hrs⟩ := hothers.exists_of_append
  refine ⟨after, qs, rs, hafter, hword, hqs, hrs, ?_, ?_⟩
  · cases after with
    | nil =>
      rw [hrs.eq_nil]
      exact hpost.collect
    | cons m rest =>
      have hpart : m.isPart = false := by
        rw [Bool.eq_false_iff]
        intro hm
        obtain ⟨v, g, hfirst⟩ := exists_collectLexemes_of_isPart hm rest
        rw [hfirst] at hnone
        cases hnone
      cases m with
      | blank =>
        obtain ⟨one, more, rfl, hone, -⟩ := hrs.exists_of_cons
        cases (hone : one = [.blank])
        rfl
      | op c => cases hglued
      | _ => cases hpart
  · rw [List.append_assoc, List.append_assoc]
    exact hbs.tokensOf_blanks hblanks _

theorem bareStart_of_bareText? {w : List Mark} {t : Text} (h : bareText? w = some t) :
    bareStart w = t := by
  induction w generalizing t with
  | nil =>
    cases h
    rfl
  | cons m rest ih =>
    match m with
    | .char false c =>
      obtain ⟨u, hu, rfl⟩ := Option.map_eq_some_iff.1 h
      rw [bareStart, ih hu]
    | .char true _ | .quotes | .param _ _ _ _ | .command _ _ | .backquoted _ _ | .blank | .op _ => cases h

theorem exists_of_introduces {w : List Mark} (h : introduces w = true) :
    ∃ t ∈ introductions, bareText? w = some t := by
  obtain ⟨t, ht, hmem⟩ := (Option.any_eq_true _ _).1 h
  exact ⟨t, List.contains_iff_mem.1 hmem, ht⟩

theorem not_introduces_of_isAssignment {w : List Mark} (h : isAssignment w = true) : introduces w = false := by
  rw [Bool.eq_false_iff]
  intro hintroduces
  obtain ⟨t, ht, hbare⟩ := exists_of_introduces hintroduces
  have hnone : ∀ u ∈ introductions, Text.cutAt '=' u = none := by decide
  rw [isAssignment, bareStart_of_bareText? hbare, hnone t ht] at h
  cases h

theorem exists_of_hasPlainHead {l : Lexeme} {ls : List Lexeme} (h : hasPlainHead (l :: ls) = true) :
    ∃ w, l = .word w false := by
  cases l with
  | op t => cases h
  | word w glued =>
    cases glued with
    | false => exact ⟨w, rfl⟩
    | true =>
      unfold hasPlainHead at h
      simp at h

theorem exists_of_items?_word {w : List Mark} {ls : List Lexeme} {items : List Item}
    (h : items? (.word w false :: ls) = some items) :
    ∃ others, items? ls = some others ∧ items = .word w :: others := by
  obtain ⟨others, hothers, heq⟩ := Option.map_eq_some_iff.1 h
  exact ⟨others, hothers, heq.symm⟩

section Word

variable {w : List Mark} {qs rs : List Shell.Mark} {assigned : Bool}

/-- The search goes on behind an assignment. If the assignment is cut off it ends at once. -/
theorem Shown.changesState_assignment (h : Shown w qs) (hword : IsWord w) (hassigns : isAssignment w = true)
    (hsplits : splits w = false) (hcollect : (Shell.collect rs).1 = none)
    (hrest : changesStateFrom true true (tokensOf rs) = true) :
    changesStateFrom true assigned (tokensOf (qs ++ rs)) = true := by
  obtain ⟨parts, cut, rfl, hne, hparts, htoken, hcut⟩ := h.exists_assignment hword.2 hassigns hsplits
  have hnotIntroducer : Shell.introducers.contains (textOf parts) = false := by
    have hall : ∀ t ∈ Shell.introducers, Shell.isAssignment t = false := by decide
    rw [Bool.eq_false_iff]
    intro hmem
    rw [hall _ (List.contains_iff_mem.1 hmem)] at htoken
    cases htoken
  have hstep : ∀ tokens, changesStateFrom true assigned (.word (textOf parts) :: tokens) =
      changesStateFrom true true tokens := by
    intro tokens
    rw [changesStateFrom, if_pos rfl, if_neg (Bool.eq_false_iff.1 hnotIntroducer), if_pos htoken]
  obtain rfl | ⟨more, rfl⟩ := hcut
  · rw [List.append_nil, Shell.tokensOf_parts hparts hne hcollect, hstep]
    exact hrest
  · rw [List.append_assoc, Shell.tokensOf_parts hparts hne rfl, hstep, List.cons_append, Shell.tokensOf_op]
    rfl

/-- The search ends at the name of a command that acts on the shell. -/
theorem Shown.changesState_name (h : Shown w qs) {t : Text} (ht : literalText? w = some t)
    (hlasting : Shell.lastingCommands.contains t = true) (hcollect : (Shell.collect rs).1 = none) :
    changesStateFrom true assigned (tokensOf (qs ++ rs)) = true := by
  have hall : ∀ u ∈ Shell.lastingCommands, u.all (IsWordChar ·) = true ∧ u ≠ [] ∧
      Shell.introducers.contains u = false ∧ Shell.isAssignment u = false := by decide
  obtain ⟨hchars, hne, hnotIntroducer, hnotAssignment⟩ := hall t (List.contains_iff_mem.1 hlasting)
  obtain ⟨hparts, htext⟩ := h.textOf_literal ht (by simpa using hchars)
  have hqs : qs ≠ [] := by
    rintro rfl
    exact hne htext.symm
  rw [Shell.tokensOf_parts hparts hqs hcollect, htext, changesStateFrom, if_pos rfl,
    if_neg (Bool.eq_false_iff.1 hnotIntroducer), if_neg (by simp [hnotAssignment]), if_pos hlasting]

/-- The search goes on behind a word that introduces a command. -/
theorem Shown.changesState_introduction (h : Shown w qs) (hintroduces : introduces w = true)
    (hcollect : (Shell.collect rs).1 = none) (hrest : changesStateFrom true assigned (tokensOf rs) = true) :
    changesStateFrom true assigned (tokensOf (qs ++ rs)) = true := by
  obtain ⟨t, ht, hbare⟩ := exists_of_introduces hintroduces
  have hall : ∀ u ∈ introductions, u.all (IsWordChar ·) = true ∧ u ≠ [] ∧
      Shell.introducers.contains u = true := by decide
  obtain ⟨hchars, hne, hintroducer⟩ := hall t ht
  obtain ⟨hparts, htext⟩ := h.textOf_literal (literalText?_of_bareText? hbare) (by simpa using hchars)
  have hqs : qs ≠ [] := by
    rintro rfl
    exact hne htext.symm
  rw [Shell.tokensOf_parts hparts hqs hcollect, htext, changesStateFrom, if_pos rfl, if_pos hintroducer]
  exact hrest

end Word

/-- A command whose assignments and name are seen is found. The induction goes over its words, up to the one
that is its name. -/
theorem changesState_of_actsFrom {seg : List Mark} {ps : List Shell.Mark} (h : Shown seg ps)
    {post : List Shell.Mark} (hpost : Ends post) {items : List Item}
    (hitems : items? (lexemes seg) = some items) (hplain : hasPlainHead (lexemes seg) = true)
    {assigned : Bool} (hacts : actsFrom assigned items = true) :
    changesStateFrom true assigned (tokensOf (ps ++ post)) = true := by
  generalize hlexemes : lexemes seg = ls at hitems hplain
  induction ls generalizing seg ps items assigned with
  | nil =>
    cases hitems
    have hassigned : assigned = true := by simpa [actsFrom, argumentsOf] using hacts
    rw [hassigned, h.tokensOf_blanks (eq_blank_of_lexemes_eq_nil hlexemes)]
    exact hpost.changesState
  | cons l ls ih =>
    obtain ⟨w, rfl⟩ := exists_of_hasPlainHead hplain
    obtain ⟨others, hothers, rfl⟩ := exists_of_items?_word hitems
    obtain ⟨after, qs, rs, hafter, hword, hqs, hrs, hcollect, htokens⟩ := h.exists_word hlexemes hpost
    rw [htokens]
    cases hassigns : isAssignment w with
    | true =>
      have hintroduces := not_introduces_of_isAssignment hassigns
      unfold hasPlainHead at hplain
      rw [if_neg (by simp [hintroduces]), if_pos hassigns] at hplain
      simp only [Bool.not_false, Bool.true_and, Bool.and_eq_true, Bool.not_eq_true'] at hplain
      have hothersAct : actsFrom true others = true := by
        rw [actsFrom, argumentsOf, if_pos hassigns] at hacts
        rw [actsFrom]
        split
        · rfl
        · next name args heq =>
          rw [heq] at hacts
          exact hacts
      exact hqs.changesState_assignment hword hassigns hplain.1 hcollect
        (ih hrs hothersAct hafter hothers hplain.2)
    | false =>
      rw [actsFrom, argumentsOf, if_neg (by simp [hassigns])] at hacts
      obtain ⟨t, ht, hlasting⟩ := (Option.any_eq_true _ _).1 hacts
      exact hqs.changesState_name ht hlasting hcollect

/-- A command that acts on the shell and has a plain head is found. -/
theorem changesState_of_actsOnShell {seg : List Mark} {ps : List Shell.Mark} (h : Shown seg ps)
    {post : List Shell.Mark} (hpost : Ends post) {items : List Item}
    (hitems : items? (lexemes seg) = some items) (hplain : hasPlainHead (lexemes seg) = true)
    (hacts : actsOnShell items = true) :
    changesStateFrom true false (tokensOf (ps ++ post)) = true := by
  rw [actsOnShell] at hacts
  generalize hlexemes : lexemes seg = ls at hitems hplain
  induction ls generalizing seg ps items with
  | nil =>
    cases hitems
    cases hacts
  | cons l ls ih =>
    obtain ⟨w, rfl⟩ := exists_of_hasPlainHead hplain
    obtain ⟨others, hothers, rfl⟩ := exists_of_items?_word hitems
    cases hintroduces : introduces w with
    | false =>
      rw [dropIntroductions, if_neg (by simp [hintroduces])] at hacts
      rw [← hlexemes] at hitems hplain
      exact changesState_of_actsFrom h hpost hitems hplain hacts
    | true =>
      obtain ⟨after, qs, rs, hafter, -, hqs, hrs, hcollect, htokens⟩ := h.exists_word hlexemes hpost
      rw [dropIntroductions, if_pos hintroduces] at hacts
      unfold hasPlainHead at hplain
      rw [if_pos hintroduces] at hplain
      rw [htokens]
      exact hqs.changesState_introduction hintroduces hcollect (ih hrs hacts hafter hothers hplain)

theorem ofBare_of_isOperator {c : Char} (h : isOperator c = true) (hc : isRedirection c = false) :
    Shell.Mark.ofBare c = .op := by
  have hall : ";&|()<>\n".toList.all
      (fun d => isRedirection d = false → Shell.Mark.ofBare d = .op) = true := by decide
  exact of_decide_eq_true (List.all_eq_true.1 hall c (List.contains_iff_mem.1 h)) hc

theorem Shown.exists_op {c : Char} {rest : List Mark} {ps : List Shell.Mark}
    (h : Shown (.op c :: rest) ps) (hc : isRedirection c = false) :
    ∃ qs, ps = .op :: qs ∧ Shown rest qs := by
  obtain ⟨one, qs, rfl, ⟨hoperator, rfl⟩, hrest⟩ := h.exists_of_cons
  rw [ofBare_of_isOperator hoperator hc]
  exact ⟨qs, rfl, hrest⟩

theorem Shown.ends {post : List Mark} {ps : List Shell.Mark} (h : Shown post ps) (hpost : Breaks post) :
    Ends ps := by
  obtain rfl | ⟨c, rest, rfl, hc⟩ := hpost
  · exact .inl h.eq_nil
  · obtain ⟨qs, rfl, -⟩ := h.exists_op hc
    exact .inr ⟨qs, rfl⟩

/-- A line is found to change the state of the shell if it has a command that acts on the shell, with a
plain head, and the scan follows the shell to its end. -/
theorem changesState_of_mem_commandsOf {line : Text} {ms seg : List Mark}
    (hread : (Reader.start.run line).marks? = some ms) (hfeed : '\n' ∉ line)
    (hflat : Reader.start.isFlat .start line = true) (hcomment : (Reader.start.run line).pending ≠ .comment)
    (hseg : seg ∈ commandsOf ms) (hacts : acts seg = true) (hplain : startsPlain seg = true) :
    Shell.changesState line = true := by
  obtain ⟨items, hitems, hacts⟩ := (Option.any_eq_true _ _).1 hacts
  obtain ⟨ps, after, hscan, hshown, hnothing⟩ := exists_shown_of_marks? hread hfeed hflat
  rw [hnothing hcomment, List.append_nil] at hscan
  obtain ⟨pre, post, rfl, hbreaks, hpre⟩ := exists_of_mem_commandsOf hseg
  obtain ⟨front, posts, rfl, hfront, hposts⟩ := hshown.exists_of_append
  obtain ⟨pres, segs, rfl, hpres, hsegs⟩ := hfront.exists_of_append
  have hfound := changesState_of_actsOnShell hsegs (hposts.ends hbreaks) hitems hplain hacts
  rw [Shell.changesState, Shell.tokens_eq, hscan]
  obtain rfl | ⟨before, c, rfl, hc⟩ := hpre
  · rw [hpres.eq_nil]
    exact hfound
  · obtain ⟨befores, ops, rfl, -, hop⟩ := hpres.exists_of_append
    obtain ⟨qs, rfl, hnil⟩ := hop.exists_op hc
    rw [hnil.eq_nil, List.append_assoc, List.append_assoc, List.singleton_append,
      Shell.tokensOf_append rfl, Shell.tokensOf_op, Shell.changesStateFrom_append_op, hfound, Bool.or_true]

end BuildScript.Posix
