import BuildScript.Proofs.Posix.Fields
import BuildScript.Proofs.Posix.Pattern

/-!
# Patterns that were quoted

A pattern is written stretch by stretch: its pattern characters stay live, and each stretch between them is quoted
if it needs quotes. So an exclamation mark is always quoted, and a hyphen is, unless its stretch needs no quotes;
in a bracket expression both have a meaning only without quotes. `IsKept` says that this makes no difference, and
`isMatch_quoteGlob` that a shell then matches the names that the pattern matches as it was written, and no other
ones.
-/

namespace BuildScript.Posix

/-- Whether the bracket expressions of a pattern would mean the same without quotes: none begins with an
exclamation mark, and each takes the characters that it would take. -/
def IsKept (gs : List Glyph) : Prop :=
  ∀ negated members, .one (.bracket negated members) ∈ elements gs →
    members.head?.map Glyph.char ≠ some '!' ∧
      ∀ c, c ≠ '/' → covers c members = covers c (members.map Glyph.unquoted)

/-- Whether a glyph may be quoted as one of a pattern: a pattern character is live, and an exclamation mark is
not. -/
structure Glyph.IsWritten (g : Glyph) : Prop where
  live : Shell.isGlob g.char = true → g.live = true
  bang : g.char = '!' → g.live = false

namespace Glyph

variable {g : Glyph}

/-- The pattern characters are found with quotes and without. -/
theorem IsWritten.isLive_eq (h : g.IsWritten) {c : Char} (hc : Shell.isGlob c = true) :
    g.isLive c = (g.char == c) := by
  by_cases hchar : g.char = c
  · rw [isLive, h.live (hchar ▸ hc), Bool.true_and]
  · simp [isLive, hchar]

theorem IsWritten.isLive_bang (h : g.IsWritten) : g.isLive '!' = false := by
  by_cases hchar : g.char = '!'
  · rw [isLive, h.bang hchar, Bool.false_and]
  · simp [isLive, hchar]

theorem isLive_unquoted (g : Glyph) (c : Char) : g.unquoted.isLive c = (g.char == c) := Bool.true_and _

theorem char_unquoted (g : Glyph) : g.unquoted.char = g.char := rfl

end Glyph

open Glyph (unquoted)

/-! ## Bracket expressions -/

theorem head?_of_members? {gs : List Glyph} {read : List Glyph × List Glyph} (h : members? gs = some read) :
    read.1.head? = gs.head? := by
  cases gs with
  | nil => cases h
  | cons g rest =>
    rw [members?] at h
    split at h
    · cases h
    · obtain ⟨others, -, rfl⟩ := Option.map_eq_some_iff.1 h
      rfl

/-- Members that end before a bracket are the same if the first one may be a bracket, too. -/
theorem members?_of_untilBracket? {gs members after : List Glyph}
    (h : untilBracket? gs = some (members, after)) (hne : members ≠ []) :
    members? gs = some (members, after) := by
  cases gs with
  | nil => cases h
  | cons g rest =>
    rw [untilBracket?] at h
    rw [members?]
    split at h
    · cases h
    · next hslash =>
      split at h
      · cases h
        exact absurd rfl hne
      · rw [if_neg hslash, h]

theorem exists_le_of_covers {c : Char} {gs : List Glyph} (h : covers c gs = true) : ∃ g ∈ gs, c ≤ g.char := by
  induction gs using covers.induct with
  | case1 a hyphen b others hlive ih =>
    rw [covers, if_pos hlive, Bool.or_eq_true, Bool.and_eq_true, decide_eq_true_eq, decide_eq_true_eq] at h
    rcases h with ⟨-, hb⟩ | h
    · exact ⟨b, by simp, hb⟩
    · obtain ⟨g, hg, hc⟩ := ih h
      exact ⟨g, by simp [hg], hc⟩
  | case2 a hyphen b others hlive ih =>
    rw [covers, if_neg hlive, Bool.or_eq_true, beq_iff_eq] at h
    rcases h with rfl | h
    · exact ⟨a, List.mem_cons_self, Char.le_refl _⟩
    · obtain ⟨g, hg, hc⟩ := ih h
      exact ⟨g, List.mem_cons_of_mem _ hg, hc⟩
  | case3 a rest hshort ih =>
    rw [covers, Bool.or_eq_true, beq_iff_eq] at h
    rcases h with rfl | h
    · exact ⟨a, List.mem_cons_self, Char.le_refl _⟩
    · obtain ⟨g, hg, hc⟩ := ih h
      exact ⟨g, List.mem_cons_of_mem _ hg, hc⟩
    · exact hshort
  | case4 => cases h

/-! ## Bracket expressions with quotes and without -/

section Brackets

variable {gs : List Glyph} (h : ∀ g ∈ gs, g.IsWritten)

include h

/-- What closes a bracket expression closes it without quotes. -/
theorem untilBracket?_unquoted : untilBracket? (gs.map unquoted) =
    (untilBracket? gs).map fun read => (read.1.map unquoted, read.2.map unquoted) := by
  induction gs with
  | nil => rfl
  | cons g rest ih =>
    obtain ⟨hg, hrest⟩ := List.forall_mem_cons.1 h
    rw [List.map_cons, untilBracket?, untilBracket?, Glyph.char_unquoted, Glyph.isLive_unquoted,
      hg.isLive_eq (by decide), ih hrest]
    split
    · rfl
    · split
      · rfl
      · rw [Option.map_map, Option.map_map]
        rfl

theorem members?_unquoted : members? (gs.map unquoted) =
    (members? gs).map fun read => (read.1.map unquoted, read.2.map unquoted) := by
  cases gs with
  | nil => rfl
  | cons g rest =>
    rw [List.map_cons, members?, members?, Glyph.char_unquoted,
      untilBracket?_unquoted (List.forall_mem_cons.1 h).2]
    split
    · rfl
    · rw [Option.map_map, Option.map_map]
      rfl

theorem bracket?_eq : bracket? gs = (members? gs).map (false, ·) := by
  cases gs with
  | nil => rfl
  | cons g rest =>
    rw [bracket?, (h g List.mem_cons_self).isLive_bang]
    rfl

/-- Without an exclamation mark a bracket expression has the same members. -/
theorem bracket?_unquoted (hhead : gs.head?.map Glyph.char ≠ some '!') : bracket? (gs.map unquoted) =
    (members? gs).map fun read => (false, read.1.map unquoted, read.2.map unquoted) := by
  have hmembers := members?_unquoted h
  cases gs with
  | nil => rfl
  | cons g rest =>
    have hchar : (g.char == '!') = false := by simpa using hhead
    rw [List.map_cons, bracket?, Glyph.isLive_unquoted, hchar, ← List.map_cons, hmembers, Option.map_map]
    rfl

/-- What is no bracket expression is none without quotes. -/
theorem bracket?_unquoted_eq_none (hnone : members? gs = none) : bracket? (gs.map unquoted) = none := by
  by_cases hhead : gs.head?.map Glyph.char = some '!'
  · cases gs with
    | nil => rfl
    | cons g rest =>
      have hchar : g.char = '!' := by simpa using hhead
      obtain ⟨-, hrest⟩ := List.forall_mem_cons.1 h
      rw [members?, if_neg (by rw [hchar]; decide), Option.map_eq_none_iff] at hnone
      have hmembers : members? rest = none := by
        cases rest with
        | nil => rfl
        | cons b rest =>
          rw [untilBracket?] at hnone
          rw [members?]
          split
          · rfl
          · next hslash =>
            rw [if_neg hslash] at hnone
            split at hnone
            · cases hnone
            · rw [Option.map_eq_none_iff] at hnone
              rw [hnone]
              rfl
      rw [List.map_cons, bracket?, Glyph.isLive_unquoted, hchar, members?_unquoted hrest, hmembers]
      rfl
  · rw [bracket?_unquoted h hhead, hnone]
    rfl

end Brackets

/-! ## Elements with quotes and without -/

section Elements

variable {g : Glyph} {rest members after : List Glyph} {negated : Bool}

theorem Glyph.char_of_isLive {c : Char} (h : g.isLive c = true) : g.char = c := by
  rw [isLive, Bool.and_eq_true, beq_iff_eq] at h
  exact h.2

theorem Glyph.isLive_of_ne {c d : Char} (h : g.isLive c = true) (hne : c ≠ d) : g.isLive d = false := by
  rw [isLive, char_of_isLive h, beq_eq_false_iff_ne.2 hne, Bool.and_false]

theorem elements_many (h : g.isLive '*' = true) : elements (g :: rest) = .many :: elements rest := by
  rw [elements, if_pos h]

theorem elements_any (h : g.isLive '?' = true) : elements (g :: rest) = .one .any :: elements rest := by
  rw [elements, if_neg (by simp [Glyph.isLive_of_ne h]), if_pos h]

theorem elements_bracket (h : g.isLive '[' = true) (hread : bracket? rest = some (negated, members, after)) :
    elements (g :: rest) = .one (.bracket negated members) :: elements after := by
  rw [elements, if_neg (by simp [Glyph.isLive_of_ne h]), if_neg (by simp [Glyph.isLive_of_ne h]), if_pos h]
  split
  · next hsome => cases hread.symm.trans hsome; rfl
  · next hnone => cases hread.symm.trans hnone

theorem elements_open (h : g.isLive '[' = true) (hread : bracket? rest = none) :
    elements (g :: rest) = .one (.char '[') :: elements rest := by
  rw [elements, if_neg (by simp [Glyph.isLive_of_ne h]), if_neg (by simp [Glyph.isLive_of_ne h]), if_pos h]
  split
  · next hsome => cases hread.symm.trans hsome
  · rfl

theorem elements_char (hmany : g.isLive '*' = false) (hany : g.isLive '?' = false)
    (hopen : g.isLive '[' = false) : elements (g :: rest) = .one (.char g.char) :: elements rest := by
  rw [elements, if_neg (by simp [hmany]), if_neg (by simp [hany]), if_neg (by simp [hopen])]

/-- How the elements of a pattern begin with quotes and without: with the same element, or with a bracket
expression. -/
inductive Begins (g : Glyph) (rest : List Glyph) : Prop
  | many (hquoted : elements (g :: rest) = .many :: elements rest)
    (hbare : elements ((g :: rest).map unquoted) = .many :: elements (rest.map unquoted))
  | one (p : Single) (hquoted : elements (g :: rest) = .one p :: elements rest)
    (hbare : elements ((g :: rest).map unquoted) = .one p :: elements (rest.map unquoted))
    (hp : ∀ negated members, p ≠ .bracket negated members)
  | bracket (members after : List Glyph) (closing : Glyph) (happend : rest = members ++ closing :: after)
    (hquoted : elements (g :: rest) = .one (.bracket false members) :: elements after)
    (hhead : members.head?.map Glyph.char ≠ some '!')
    (hbare : elements ((g :: rest).map unquoted) =
      .one (.bracket false (members.map unquoted)) :: elements (after.map unquoted))
  /-- The exclamation mark is a member only because it is quoted. -/
  | bang (members after : List Glyph) (closing : Glyph) (p : Single) (es : List Element)
    (hopen : g.char = '[') (happend : rest = members ++ closing :: after)
    (hquoted : elements (g :: rest) = .one (.bracket false members) :: elements after)
    (hhead : members.head?.map Glyph.char = some '!')
    (hbare : elements ((g :: rest).map unquoted) = .one p :: es)
    (hp : (∃ others, p = .bracket true others ∧ others ⊆ rest.map unquoted) ∨
      p = .char '[' ∧ members.map Glyph.char = ['!'])

/-- A bracket expression that begins with an exclamation mark, as it is read without quotes. -/
theorem bracket?_bang (h : ∀ k ∈ rest, k.IsWritten) (hhead : rest.head?.map Glyph.char = some '!')
    (hmembers : members? rest = some (members, after)) :
    (∃ others behind, bracket? (rest.map unquoted) = some (true, others, behind) ∧
        others ⊆ rest.map unquoted) ∨
      bracket? (rest.map unquoted) = none ∧ members.map Glyph.char = ['!'] := by
  cases rest with
  | nil => cases hmembers
  | cons k rest =>
    have hchar : k.char = '!' := by simpa using hhead
    obtain ⟨-, hrest⟩ := List.forall_mem_cons.1 h
    rw [members?, if_neg (by rw [hchar]; decide)] at hmembers
    obtain ⟨⟨others, behind⟩, hread, heq⟩ := Option.map_eq_some_iff.1 hmembers
    cases heq
    have hbare : bracket? ((k :: rest).map unquoted) = (members? (rest.map unquoted)).map (true, ·) := by
      rw [List.map_cons, bracket?, Glyph.isLive_unquoted, hchar]
      rfl
    by_cases hnil : others = []
    · cases hmembers : members? (rest.map unquoted) with
      | none =>
        refine .inr ⟨by rw [hbare, hmembers]; rfl, ?_⟩
        rw [hnil, List.map_singleton, hchar]
      | some read =>
        obtain ⟨closing, happend⟩ := append_of_members? hmembers
        refine .inl ⟨read.1, read.2, by rw [hbare, hmembers]; rfl, fun b hb => ?_⟩
        rw [List.map_cons, happend]
        exact List.mem_cons_of_mem _ (List.mem_append_left _ hb)
    · have hmembers : members? (rest.map unquoted) = some (others.map unquoted, behind.map unquoted) := by
        rw [members?_unquoted hrest, members?_of_untilBracket? hread hnil]
        rfl
      obtain ⟨closing, happend⟩ := append_of_members? hmembers
      refine .inl ⟨_, _, by rw [hbare, hmembers]; rfl, fun b hb => ?_⟩
      rw [List.map_cons, happend]
      exact List.mem_cons_of_mem _ (List.mem_append_left _ hb)

theorem begins (h : ∀ k ∈ g :: rest, k.IsWritten) : Begins g rest := by
  obtain ⟨hg, hrest⟩ := List.forall_mem_cons.1 h
  have hsame : ∀ c, Shell.isGlob c = true → (unquoted g).isLive c = g.isLive c := fun c hc => by
    rw [hg.isLive_eq hc, Glyph.isLive_unquoted]
  by_cases hmany : g.isLive '*' = true
  · exact .many (elements_many hmany) (elements_many (hsame '*' (by decide) ▸ hmany))
  by_cases hany : g.isLive '?' = true
  · exact .one .any (elements_any hany) (elements_any (hsame '?' (by decide) ▸ hany)) (by simp)
  by_cases hopen : g.isLive '[' = true
  · have hopen' : (unquoted g).isLive '[' = true := hsame '[' (by decide) ▸ hopen
    have hread := bracket?_eq hrest
    cases hmembers : members? rest with
    | none =>
      rw [hmembers] at hread
      exact .one (.char '[') (elements_open hopen hread)
        (elements_open hopen' (bracket?_unquoted_eq_none hrest hmembers)) (by simp)
    | some read =>
      rw [hmembers] at hread
      obtain ⟨closing, happend⟩ := append_of_members? hmembers
      by_cases hhead : rest.head?.map Glyph.char = some '!'
      · have hhead' : read.1.head?.map Glyph.char = some '!' := head?_of_members? hmembers ▸ hhead
        have hbracket := Glyph.char_of_isLive hopen
        rcases bracket?_bang hrest hhead hmembers with ⟨others, behind, hbare, hsubset⟩ | ⟨hbare, hone⟩
        · exact .bang read.1 read.2 closing _ _ hbracket happend (elements_bracket hopen hread) hhead'
            (elements_bracket hopen' hbare) (.inl ⟨others, rfl, hsubset⟩)
        · exact .bang read.1 read.2 closing _ _ hbracket happend (elements_bracket hopen hread) hhead'
            (elements_open hopen' hbare) (.inr ⟨rfl, hone⟩)
      · have hbare := bracket?_unquoted hrest hhead
        rw [hmembers] at hbare
        exact .bracket read.1 read.2 closing happend (elements_bracket hopen hread)
          (head?_of_members? hmembers ▸ hhead) (elements_bracket hopen' hbare)
  · have hnone : ∀ {c}, ¬g.isLive c = true → g.isLive c = false := fun hc => by simpa using hc
    refine .one (.char g.char) (elements_char (hnone hmany) (hnone hany) (hnone hopen)) ?_ (by simp)
    exact elements_char (hsame '*' (by decide) ▸ hnone hmany) (hsame '?' (by decide) ▸ hnone hany)
      (hsame '[' (by decide) ▸ hnone hopen)

end Elements

theorem IsKept.of_cons {gs rest : List Glyph} {e : Element} (h : elements gs = e :: elements rest)
    (hkept : IsKept gs) : IsKept rest := fun negated members hmem =>
  hkept negated members (h ▸ List.mem_cons_of_mem _ hmem)

theorem isKept_cons {gs rest : List Glyph} {e : Element} (h : elements gs = e :: elements rest)
    (hfirst : ∀ negated members, e = .one (.bracket negated members) →
      members.head?.map Glyph.char ≠ some '!' ∧
        ∀ c, c ≠ '/' → covers c members = covers c (members.map unquoted))
    (hrest : IsKept rest) : IsKept gs := by
  intro negated members hmem
  rw [h] at hmem
  rcases List.mem_cons.1 hmem with heq | hmem
  · exact hfirst negated members heq.symm
  · exact hrest negated members hmem

theorem Single.takes_bracket {c : Char} (hc : c ≠ '/') (negated : Bool) (members : List Glyph) :
    (Single.bracket negated members).takes c = (covers c members != negated) := by
  simp [takes, hc]

/-- Bracket expressions that are not negated take the same characters if their members cover the same ones. -/
theorem Single.alike_bracket_iff {members others : List Glyph} :
    (Single.bracket false members).Alike (.bracket false others) ↔
      ∀ c, c ≠ '/' → covers c members = covers c others := by
  constructor
  · intro h c hc
    have htakes := h c
    rwa [takes_bracket hc, takes_bracket hc, Bool.bne_false, Bool.bne_false] at htakes
  · intro h c
    by_cases hc : c = '/'
    · simp [takes, hc]
    · rw [takes_bracket hc, takes_bracket hc, h c hc]

theorem Element.Alike.refl : ∀ e : Element, e.Alike e
  | .many => .many
  | .one _ => .one fun _ => rfl

/-- A pattern that is kept has the same elements without quotes. -/
theorem forall₂_alike_elements {gs : List Glyph} (h : ∀ g ∈ gs, g.IsWritten) (hkept : IsKept gs) :
    List.Forall₂ Element.Alike (elements gs) (elements (gs.map unquoted)) := by
  induction hn : gs.length using Nat.strongRecOn generalizing gs with
  | ind n ih =>
    subst hn
    cases gs with
    | nil =>
      rw [List.map_nil, elements]
      exact .nil
    | cons g rest =>
      have hrest := (List.forall_mem_cons.1 h).2
      cases begins h with
      | many hquoted hbare =>
        rw [hquoted, hbare]
        exact .cons .many (ih _ (Nat.lt_succ_self _) hrest (hkept.of_cons hquoted) rfl)
      | one p hquoted hbare hp =>
        rw [hquoted, hbare]
        exact .cons (.refl _) (ih _ (Nat.lt_succ_self _) hrest (hkept.of_cons hquoted) rfl)
      | bracket members after closing happend hquoted hhead hbare =>
        have hcovers := (hkept false members (hquoted ▸ List.mem_cons_self)).2
        rw [hquoted, hbare]
        subst happend
        refine .cons (.one (Single.alike_bracket_iff.2 hcovers)) (ih _ ?_ ?_ (hkept.of_cons hquoted) rfl)
        · simp only [List.length_cons, List.length_append]
          omega
        · exact fun k hk => hrest k (by simp [hk])
      | bang members after closing p es hopen happend hquoted hhead hbare hp =>
        exact absurd hhead (hkept false members (hquoted ▸ List.mem_cons_self)).1

/-- A bracket expression in which an exclamation mark is a member takes other characters than it would without
quotes: the last of all characters if it would be negated, and a bracket that opens if it would be none. -/
theorem not_alike_bang {members others : List Glyph} {p : Single} {z : Char} (hslash : '/' < z)
    (hmembers : ∀ k ∈ members, k.char < z) (hothers : ∀ k ∈ others, k.char < z)
    (hp : p = .bracket true others ∨ p = .char '[' ∧ members.map Glyph.char = ['!']) :
    ¬(Single.bracket false members).Alike p := by
  intro halike
  have hnone : ∀ {gs : List Glyph}, (∀ k ∈ gs, k.char < z) → covers z gs = false := by
    intro gs hgs
    by_contra hcovers
    obtain ⟨k, hk, hle⟩ := exists_le_of_covers (by simpa using hcovers)
    exact Char.not_lt.2 hle (hgs k hk)
  rcases hp with rfl | ⟨rfl, hone⟩
  · have hz : z ≠ '/' := by
      rintro rfl
      exact absurd hslash (by decide)
    have htakes := halike z
    rw [Single.takes_bracket hz, Single.takes_bracket hz, hnone hmembers, hnone hothers] at htakes
    cases htakes
  · obtain ⟨k, rfl, hk⟩ := List.map_eq_singleton_iff.1 hone
    have htakes := halike '['
    rw [Single.takes_bracket (by decide), covers, hk] at htakes
    · cases htakes
    · simp

/-- A pattern whose elements take the same characters without quotes is kept. -/
theorem isKept_of_alike {gs : List Glyph} (h : ∀ g ∈ gs, g.IsWritten) {z : Char} (hz : ∀ g ∈ gs, g.char < z)
    (halike : List.Forall₂ Single.Alike (singles (elements gs)) (singles (elements (gs.map unquoted)))) :
    IsKept gs := by
  induction hn : gs.length using Nat.strongRecOn generalizing gs with
  | ind n ih =>
    subst hn
    cases gs with
    | nil =>
      intro negated members hmem
      rw [elements] at hmem
      cases hmem
    | cons g rest =>
      have hrest := (List.forall_mem_cons.1 h).2
      have hzrest := (List.forall_mem_cons.1 hz).2
      cases begins h with
      | many hquoted hbare =>
        rw [hquoted, hbare] at halike
        refine isKept_cons hquoted (fun negated others heq => ?_)
          (ih _ (Nat.lt_succ_self _) hrest hzrest halike rfl)
        cases heq
      | one p hquoted hbare hp =>
        rw [hquoted, hbare] at halike
        have htail := ih _ (Nat.lt_succ_self _) hrest hzrest (List.forall₂_cons.1 halike).2 rfl
        exact isKept_cons hquoted (fun negated members heq => absurd (Element.one.inj heq) (hp _ _)) htail
      | bracket members after closing happend hquoted hhead hbare =>
        rw [hquoted, hbare] at halike
        obtain ⟨hfirst, hothers⟩ := List.forall₂_cons.1 halike
        subst happend
        have htail : IsKept after := by
          refine ih _ ?_ (fun k hk => hrest k (by simp [hk])) (fun k hk => hzrest k (by simp [hk])) hothers rfl
          simp only [List.length_cons, List.length_append]
          omega
        refine isKept_cons hquoted (fun negated others heq => ?_) htail
        cases heq
        exact ⟨hhead, Single.alike_bracket_iff.1 hfirst⟩
      | bang members after closing p es hopen happend hquoted hhead hbare hp =>
        rw [hquoted, hbare] at halike
        have hslash : '/' < z := by
          have hopen' := hz g List.mem_cons_self
          rw [hopen] at hopen'
          exact Char.lt_trans (by decide) hopen'
        have hmembers : ∀ k ∈ members, k.char < z := fun k hk => hzrest k (by simp [happend, hk])
        have hall : ∀ k ∈ rest.map unquoted, k.char < z := List.forall_mem_map.2 hzrest
        refine absurd (List.forall₂_cons.1 halike).1 ?_
        rcases hp with ⟨others, rfl, hsubset⟩ | hp
        · exact not_alike_bang hslash hmembers (fun k hk => hall k (hsubset hk)) (.inl rfl)
        · exact not_alike_bang hslash hmembers (List.forall_mem_nil _) (.inr hp)

/-! ## Patterns in a script -/

/-- The glyph that an atom is. -/
def Atom.glyph? : Atom → Option Glyph
  | .none => Option.none
  | .quoted c => some ⟨c, false⟩
  | .bare c | .result c => some ⟨c, true⟩

/-- The pattern that the atoms of a word are. -/
def glyphs (atoms : List Atom) : List Glyph := atoms.filterMap Atom.glyph?

/-- The atoms of a text that is one word. -/
def wordOf? (m : Machine) (ρ : Vars) (t : Text) : Option (List Atom) :=
  match read t with
  | some [.word marks] => atoms? m ρ (expandTilde m marks)
  | _ => none

/-- A mark of literal text as an atom. -/
def Mark.atom : Mark → Atom
  | .char true c => .quoted c
  | .char false c => .bare c
  | _ => .none

/-- Whether a mark may stand in a quoted pattern: a pattern character is live, and other characters are only if
they have no meaning. -/
inductive Mark.IsWritten : Mark → Prop
  | quotes : IsWritten .quotes
  | quoted (c : Char) (h : Shell.isGlob c = false) : IsWritten (.char true c)
  | bare (c : Char) (h : Shell.isPlain c = true ∨ Shell.isGlob c = true) : IsWritten (.char false c)

section Marks

variable {ms : List Mark} (h : ∀ k ∈ ms, k.IsWritten)

include h

theorem atoms?_of_isWritten (m : Machine) (ρ : Vars) : atoms? m ρ ms = some (ms.map Mark.atom) := by
  induction ms with
  | nil => rfl
  | cons k ms ih =>
    obtain ⟨hk, hms⟩ := List.forall_mem_cons.1 h
    rw [atoms?, ih hms]
    cases hk <;> rfl

theorem isWritten_glyphs : ∀ g ∈ glyphs (ms.map Mark.atom), g.IsWritten := by
  intro g hg
  obtain ⟨a, ha, hglyph⟩ := List.mem_filterMap.1 hg
  obtain ⟨k, hk, rfl⟩ := List.mem_map.1 ha
  cases h k hk with
  | quotes => cases hglyph
  | quoted c hc =>
    cases hglyph
    exact ⟨fun hglob => absurd (hc.symm.trans hglob) (by decide), fun _ => rfl⟩
  | bare c hc =>
    cases hglyph
    refine ⟨fun _ => rfl, ?_⟩
    rintro rfl
    exact absurd hc (by decide)

end Marks

theorem char_glyphs (as : List Atom) : (glyphs as).map Glyph.char = as.flatMap Atom.text := by
  induction as with
  | nil => rfl
  | cons a as ih =>
    rw [List.flatMap_cons, ← ih]
    cases a with
    | none => rfl
    | _ => rfl

theorem isWritten_quoteMarks {t : Text} (h : ∀ c ∈ t, Shell.isGlob c = false) :
    ∀ k ∈ quoteMarks t, k.IsWritten := by
  intro k hk
  unfold quoteMarks at hk
  split at hk
  · next hplain =>
    obtain ⟨c, hc, rfl⟩ := List.mem_map.1 hk
    exact .bare c (.inl (List.all_eq_true.1 hplain.2 c hc))
  · rcases List.mem_cons.1 hk with rfl | hk
    · exact .quotes
    · obtain ⟨c, hc, hk⟩ := List.mem_flatMap.1 hk
      split at hk
      · simp only [List.mem_cons, List.not_mem_nil, or_false] at hk
        rcases hk with rfl | rfl | rfl
        · exact .quotes
        · exact .quoted c (h c hc)
        · exact .quotes
      · rw [List.mem_singleton.1 hk]
        exact .quoted c (h c hc)

/-- A literal stretch of a pattern has no pattern characters. -/
theorem isGlob_of_mem_globParts {t u : Text} (h : .literal u ∈ Shell.globParts t) :
    ∀ c ∈ u, Shell.isGlob c = false := by
  induction t generalizing u with
  | nil => cases h
  | cons c rest ih =>
    rw [Shell.globParts] at h
    split at h
    · rcases List.mem_cons.1 h with heq | h
      · cases heq
      · exact ih h
    · next hc =>
      split at h
      · next v parts hparts =>
        rcases List.mem_cons.1 h with heq | h
        · cases heq
          refine List.forall_mem_cons.2 ⟨by simpa using hc, ih ?_⟩
          rw [hparts]
          exact List.mem_cons_self
        · exact ih (hparts ▸ List.mem_cons_of_mem _ h)
      · rcases List.mem_cons.1 h with heq | h
        · cases heq
          exact List.forall_mem_singleton.2 (by simpa using hc)
        · exact ih h

theorem isWritten_globMarks (t : Text) : ∀ k ∈ globMarks t, k.IsWritten := by
  unfold globMarks
  split
  · intro k hk
    obtain ⟨p, hp, hk⟩ := List.mem_flatMap.1 hk
    cases p with
    | live c =>
      rw [List.mem_singleton.1 hk]
      exact .bare c (.inr (((globParts_spec t).2 _ hp).2 c rfl))
    | literal u => exact isWritten_quoteMarks (isGlob_of_mem_globParts hp) k hk
  · next hglob =>
    refine isWritten_quoteMarks fun c hc => ?_
    rw [Bool.not_eq_true, Shell.hasGlob, List.any_eq_false] at hglob
    simpa using hglob c hc

/-- The atoms of a quoted pattern. -/
def globAtoms (t : Text) : List Atom := (globMarks t).map Mark.atom

theorem text_globAtoms (t : Text) : (globAtoms t).flatMap Atom.text = t := by
  have hvalue := (reads_globMarks t).2.value (Word.closed_literal t) (.bare []) fun _ => none
  rw [Word.value_literal, textOf?, atoms?_of_isWritten (isWritten_globMarks t)] at hvalue
  exact Option.some.inj hvalue

theorem read_quoteGlob (t : Text) : read (Shell.quoteGlob t) = some [.word (globMarks t)] := by
  obtain ⟨hsolid, hreads⟩ := reads_globMarks t
  rw [read_of_run (Reader.isBare_start.run_quoteGlob t), tokens_word (isWord_of_inert hreads.inert hsolid)]

theorem wordOf?_quoteGlob (m : Machine) (ρ : Vars) (t : Text) :
    wordOf? m ρ (Shell.quoteGlob t) = some (globAtoms t) := by
  rw [wordOf?, read_quoteGlob]
  show atoms? m ρ (expandTilde m (globMarks t)) = _
  rw [expandTilde_of_inert (by decide) (reads_globMarks t).2.inert,
    atoms?_of_isWritten (isWritten_globMarks t)]
  rfl

/-- A quoted pattern is one field before files are looked for. -/
theorem fieldsOf?_quoteGlob (m : Machine) (ρ : Vars) (t : Text) :
    fieldsOf? m ρ (Shell.quoteGlob t) = some (pathnames m (globAtoms t)) := by
  have hwritten := isWritten_globMarks t
  obtain ⟨hsolid, hreads⟩ := reads_globMarks t
  obtain ⟨as, has, hsettled⟩ := exists_atoms?_of_inert (m := m) (ρ := ρ) hreads.inert
  have hne := atoms?_ne_nil hsolid has
  rw [atoms?_of_isWritten hwritten] at has
  obtain rfl := Option.some.inj has
  have hfields : fields? m ρ (globMarks t) = some (pathnames m (globAtoms t)) := by
    rw [fields?, expandTilde_of_inert (by decide) hreads.inert, atoms?_of_isWritten hwritten, Option.map_some,
      splitFields_of_settled hsettled hne]
    exact congrArg some (List.append_nil _)
  simp [fieldsOf?, read_quoteGlob, words?, allFields?, hfields]

/-- A quoted pattern has a live pattern character if the pattern has one. -/
theorem any_isLive_globAtoms (t : Text) : (globAtoms t).any Atom.isLive = Shell.hasGlob t := by
  have hatoms : ∀ a ∈ globAtoms t, ∀ c ∈ a.text, a.isLive = Shell.isGlob c := by
    intro a ha c hc
    obtain ⟨k, hk, rfl⟩ := List.mem_map.1 ha
    cases isWritten_globMarks t k hk with
    | quotes => cases hc
    | quoted d hd =>
      obtain rfl := List.mem_singleton.1 hc
      exact hd.symm
    | bare d hd =>
      obtain rfl := List.mem_singleton.1 hc
      rfl
  rw [Bool.eq_iff_iff, Shell.hasGlob, List.any_eq_true, List.any_eq_true]
  constructor
  · rintro ⟨a, ha, hlive⟩
    obtain ⟨c, hc⟩ : ∃ c, c ∈ a.text := by cases a <;> simp [Atom.isLive, Atom.text] at hlive ⊢
    refine ⟨c, ?_, hatoms a ha c hc ▸ hlive⟩
    rw [← text_globAtoms t]
    exact List.mem_flatMap.2 ⟨a, ha, hc⟩
  · rintro ⟨c, hc, hglob⟩
    rw [← text_globAtoms t] at hc
    obtain ⟨a, ha, hc⟩ := List.mem_flatMap.1 hc
    exact ⟨a, ha, hatoms a ha c hc ▸ hglob⟩

/-! ## What a shell matches -/

/-- A shell reads a quoted pattern as one word with the text of the pattern. If its bracket expressions mean the
same without quotes, the word matches the names that the pattern matches as it was written. It does so only
then, unless neither matches any name at all, provided that there is a character behind all those of the
pattern. -/
theorem isMatch_quoteGlob (t : Text) : ∃ atoms : List Atom,
    (∀ (m : Machine) (ρ : Vars), wordOf? m ρ (Shell.quoteGlob t) = some atoms ∧
      fieldsOf? m ρ (Shell.quoteGlob t) = some (pathnames m atoms)) ∧
    atoms.flatMap Atom.text = t ∧
    (IsKept (glyphs atoms) →
      ∀ name, isMatch (glyphs atoms) name = isMatch (t.map Glyph.bare) name) ∧
    ∀ z, (∀ c ∈ t, c < z) →
      ((∀ name, isMatch (glyphs atoms) name = isMatch (t.map Glyph.bare) name) ↔
        IsKept (glyphs atoms) ∨
          ∀ name, isMatch (glyphs atoms) name = false ∧ isMatch (t.map Glyph.bare) name = false) := by
  have hwritten : ∀ g ∈ glyphs (globAtoms t), g.IsWritten := isWritten_glyphs (isWritten_globMarks t)
  have hchars : (glyphs (globAtoms t)).map Glyph.char = t := by rw [char_glyphs, text_globAtoms]
  have hbare : t.map Glyph.bare = (glyphs (globAtoms t)).map unquoted := by
    conv_lhs => rw [← hchars, List.map_map]
    rfl
  have hkept : IsKept (glyphs (globAtoms t)) →
      ∀ name, isMatch (glyphs (globAtoms t)) name = isMatch (t.map Glyph.bare) name := fun hkept name =>
    hbare ▸ accepts_congr (forall₂_alike_elements hwritten hkept) name
  refine ⟨globAtoms t, fun m ρ => ⟨wordOf?_quoteGlob m ρ t, fieldsOf?_quoteGlob m ρ t⟩, text_globAtoms t,
    hkept, fun z hz => ⟨fun hsame => ?_, ?_⟩⟩
  · by_cases hnone : ∀ name, isMatch (t.map Glyph.bare) name = false
    · exact .inr fun name => ⟨(hsame name).trans (hnone name), hnone name⟩
    · obtain ⟨name, hname⟩ := not_forall.1 hnone
      have hmatch : isMatch (glyphs (globAtoms t)) name = true := by
        rw [hsame]
        simpa using hname
      refine .inl (isKept_of_alike hwritten (fun g hg => hz g.char ?_)
        (forall₂_alike_of_accepts (fun name => ?_) hmatch))
      · rw [← hchars]
        exact List.mem_map_of_mem hg
      · rw [← hbare]
        exact hsame name
  · rintro (h | h)
    · exact hkept h
    · exact fun name => (h name).1.trans (h name).2.symm

/-- A bracket expression with a bracket and a range as its members, behind a blank that needs quotes. -/
theorem isMatch_quoteGlob_range : ∃ atoms : List Atom,
    (∀ (m : Machine) (ρ : Vars), wordOf? m ρ "'a b'[]a-c]*".toList = some atoms) ∧
    (∀ name, isMatch (glyphs atoms) name = isMatch ("a b[]a-c]*".toList.map Glyph.bare) name) ∧
    isMatch (glyphs atoms) "a bb-x".toList = true ∧ isMatch (glyphs atoms) "a b-x".toList = false := by
  obtain ⟨atoms, hword, -, hkept, -⟩ := isMatch_quoteGlob "a b[]a-c]*".toList
  have hquote : Shell.quoteGlob "a b[]a-c]*".toList = "'a b'[]a-c]*".toList := by decide +kernel
  rw [hquote] at hword
  have hatoms : wordOf? (.bare []) (fun _ => none) "'a b'[]a-c]*".toList =
      some (.none :: "a b".toList.map .quoted ++ "[]a-c]*".toList.map .bare) := by
    decide +kernel
  obtain rfl := Option.some.inj (hatoms.symm.trans (hword (.bare []) fun _ => none).1)
  have helements : elements (glyphs (.none :: "a b".toList.map .quoted ++ "[]a-c]*".toList.map .bare)) =
      [.one (.char 'a'), .one (.char ' '), .one (.char 'b'),
        .one (.bracket false ("]a-c".toList.map Glyph.bare)), .many] := by
    decide +kernel
  refine ⟨_, fun m ρ => (hword m ρ).1, hkept ?_, by decide +kernel, by decide +kernel⟩
  intro negated members hmem
  rw [helements] at hmem
  simp only [List.mem_cons, Element.one.injEq, Single.bracket.injEq, reduceCtorEq, List.not_mem_nil, or_false,
    false_or] at hmem
  obtain ⟨-, rfl⟩ := hmem
  exact ⟨by decide, fun c _ => rfl⟩

/-- The exclamation mark is quoted, and the names are those that the pattern excludes; the hyphen is quoted because
of another character of its stretch. -/
theorem not_isMatch_bang :
    Shell.quoteGlob "[!a]*".toList = "['!a']*".toList ∧
    isMatch ("[!a]*".toList.map Glyph.bare) "b".toList = true ∧
    (wordOf? (.bare []) (fun _ => none) "['!a']*".toList).map (fun as => isMatch (glyphs as) "b".toList) =
      some false ∧
    Shell.quoteGlob "[a-c+]".toList = "['a-c+']".toList ∧
    isMatch ("[a-c+]".toList.map Glyph.bare) "b".toList = true ∧
    (wordOf? (.bare []) (fun _ => none) "['a-c+']".toList).map (fun as => isMatch (glyphs as) "b".toList) =
      some false := by
  decide +kernel

end BuildScript.Posix
