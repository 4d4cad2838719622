import Mathlib.Data.List.Forall2
import BuildScript.Text.Basic

/-!
# File name patterns

A pattern is a text in which some characters are quoted. Of those that are not, `*` matches any stretch of a
name, `?` any character, and `[` begins a bracket expression if a `]` closes it, which matches one of its members
or, behind `!`, any other character; all other characters match themselves. None of the three matches a slash. A
dot at the start of a name is a character like others, and bracket expressions have no classes.

Reading gives the elements of a pattern (`elements`), and these tell which names it matches (`accepts`). Two
patterns that match the same names, and match any, have the same number of elements that stand for one
character, and these take the same characters (`forall₂_alike_of_accepts`).
-/

namespace BuildScript.Posix

/-- A character of a pattern. It is live if it stands there without quotes. -/
structure Glyph where
  char : Char
  live : Bool
  deriving DecidableEq, Repr

namespace Glyph

/-- A character without quotes. -/
def bare (c : Char) : Glyph := ⟨c, true⟩

/-- The same character without quotes. -/
def unquoted (g : Glyph) : Glyph := bare g.char

/-- Whether a glyph is a certain character and live. -/
def isLive (g : Glyph) (c : Char) : Bool := g.live && g.char == c

end Glyph

/-! ## Reading -/

/-- The members of a bracket expression up to the bracket that closes it, and what stands behind that. A slash
cannot stand between them. -/
def untilBracket? : List Glyph → Option (List Glyph × List Glyph)
  | [] => none
  | g :: rest =>
    if g.char = '/' then none
    else if g.isLive ']' then some ([], rest)
    else (untilBracket? rest).map fun read => (g :: read.1, read.2)

/-- The members of a bracket expression, of which the first one may be any character but a slash, and what stands
behind it. -/
def members? : List Glyph → Option (List Glyph × List Glyph)
  | [] => none
  | g :: rest =>
    if g.char = '/' then none else (untilBracket? rest).map fun read => (g :: read.1, read.2)

/-- What stands behind a bracket that opens, as a bracket expression: whether its members are excluded, the
members, and what stands behind it. -/
def bracket? : List Glyph → Option (Bool × List Glyph × List Glyph)
  | [] => none
  | g :: rest =>
    if g.isLive '!' then (members? rest).map (true, ·) else (members? (g :: rest)).map (false, ·)

/-- What matches one character. -/
inductive Single where
  | any
  | char (c : Char)
  | bracket (negated : Bool) (members : List Glyph)
  deriving DecidableEq, Repr

/-- An element of a pattern. -/
inductive Element where
  /-- Any stretch without a slash. -/
  | many
  | one (p : Single)
  deriving DecidableEq, Repr

theorem append_of_untilBracket? {gs members after : List Glyph}
    (h : untilBracket? gs = some (members, after)) : ∃ g, gs = members ++ g :: after := by
  induction gs generalizing members with
  | nil => cases h
  | cons g rest ih =>
    rw [untilBracket?] at h
    split at h
    · cases h
    · split at h
      · cases h
        exact ⟨g, rfl⟩
      · obtain ⟨⟨others, after'⟩, hrest, heq⟩ := Option.map_eq_some_iff.1 h
        cases heq
        obtain ⟨closing, rfl⟩ := ih hrest
        exact ⟨closing, rfl⟩

theorem append_of_members? {gs members after : List Glyph} (h : members? gs = some (members, after)) :
    ∃ g, gs = members ++ g :: after := by
  cases gs with
  | nil => cases h
  | cons g rest =>
    rw [members?] at h
    split at h
    · cases h
    · obtain ⟨⟨others, after'⟩, hrest, heq⟩ := Option.map_eq_some_iff.1 h
      cases heq
      obtain ⟨closing, rfl⟩ := append_of_untilBracket? hrest
      exact ⟨closing, rfl⟩

theorem append_of_bracket? {gs members after : List Glyph} {negated : Bool}
    (h : bracket? gs = some (negated, members, after)) : ∃ before g, gs = before ++ members ++ g :: after := by
  cases gs with
  | nil => cases h
  | cons g rest =>
    rw [bracket?] at h
    split at h
    · obtain ⟨read, hread, heq⟩ := Option.map_eq_some_iff.1 h
      cases heq
      obtain ⟨closing, hrest⟩ := append_of_members? hread
      exact ⟨[g], closing, congrArg (g :: ·) hrest⟩
    · obtain ⟨read, hread, heq⟩ := Option.map_eq_some_iff.1 h
      cases heq
      obtain ⟨closing, hrest⟩ := append_of_members? hread
      exact ⟨[], closing, hrest⟩

theorem length_of_bracket? {gs members after : List Glyph} {negated : Bool}
    (h : bracket? gs = some (negated, members, after)) : after.length < gs.length := by
  obtain ⟨before, g, rfl⟩ := append_of_bracket? h
  simp only [List.length_append, List.length_cons]
  omega

/-- The elements of a pattern. A bracket that nothing closes is a character like others. -/
def elements (gs : List Glyph) : List Element :=
  match gs with
  | [] => []
  | g :: rest =>
    if g.isLive '*' then .many :: elements rest
    else if g.isLive '?' then .one .any :: elements rest
    else if g.isLive '[' then
      match h : bracket? rest with
      | some (negated, members, after) =>
        have := length_of_bracket? h
        .one (.bracket negated members) :: elements after
      | none => .one (.char '[') :: elements rest
    else .one (.char g.char) :: elements rest
termination_by gs.length

/-! ## Matching -/

/-- Whether a character is a member of a bracket expression, or in a range of it. A hyphen between two members
makes a range if it is live. -/
def covers (c : Char) : List Glyph → Bool
  | a :: hyphen :: b :: others =>
    if hyphen.isLive '-' then decide (a.char ≤ c) && decide (c ≤ b.char) || covers c others
    else c == a.char || covers c (hyphen :: b :: others)
  | a :: rest => c == a.char || covers c rest
  | [] => false

/-- Whether a character is matched. -/
def Single.takes (c : Char) : Single → Bool
  | .any => c != '/'
  | .char d => c == d
  | .bracket negated members => c != '/' && covers c members != negated

/-- What may be left of a name behind a stretch without a slash. -/
def behindMany : Text → List Text
  | [] => [[]]
  | c :: rest => (c :: rest) :: if c = '/' then [] else behindMany rest

/-- Whether elements match a name. -/
def accepts : List Element → Text → Bool
  | [], name => name.isEmpty
  | .many :: es, name => (behindMany name).any (accepts es)
  | .one _ :: _, [] => false
  | .one p :: es, c :: rest => p.takes c && accepts es rest

/-- Whether a pattern matches a name. -/
def isMatch (gs : List Glyph) (name : Text) : Bool := accepts (elements gs) name

/-! ## Names that elements match -/

/-- The elements that stand for one character. -/
def singles : List Element → List Single
  | [] => []
  | .many :: es => singles es
  | .one p :: es => p :: singles es

/-- Whether characters are matched one by one. -/
def Fits (ps : List Single) (name : Text) : Prop := List.Forall₂ (fun p c => p.takes c = true) ps name

/-- Whether two elements for one character take the same ones. -/
def Single.Alike (p q : Single) : Prop := ∀ c, p.takes c = q.takes c

/-- Whether two elements match the same. -/
inductive Element.Alike : Element → Element → Prop
  | many : Alike .many .many
  | one {p q : Single} (h : p.Alike q) : Alike (.one p) (.one q)

theorem self_mem_behindMany (name : Text) : name ∈ behindMany name := by
  cases name <;> exact List.mem_cons_self

theorem suffix_of_mem_behindMany {rest name : Text} (h : rest ∈ behindMany name) : rest <:+ name := by
  induction name with
  | nil => exact List.mem_singleton.1 h ▸ List.suffix_rfl
  | cons c tail ih =>
    rcases List.mem_cons.1 h with rfl | h
    · exact List.suffix_rfl
    · split at h
      · cases h
      · exact (ih h).trans (List.suffix_cons c tail)

theorem accepts_many_iff {es : List Element} {name : Text} :
    accepts (.many :: es) name = true ↔ ∃ rest ∈ behindMany name, accepts es rest = true :=
  List.any_eq_true

theorem accepts_one_iff {p : Single} {es : List Element} {name : Text} :
    accepts (.one p :: es) name = true ↔
      ∃ c rest, name = c :: rest ∧ p.takes c = true ∧ accepts es rest = true := by
  cases name with
  | nil => simp [accepts]
  | cons c rest => simp [accepts]

/-- Elements that match the same one by one match the same names. -/
theorem accepts_congr {es ds : List Element} (h : List.Forall₂ Element.Alike es ds) (name : Text) :
    accepts es name = accepts ds name := by
  induction h generalizing name with
  | nil => rfl
  | cons hfirst _ ih =>
    cases hfirst with
    | many => exact congrArg (behindMany name).any (funext ih)
    | one hp =>
      cases name with
      | nil => rfl
      | cons c rest => rw [accepts, accepts, hp c, ih]

/-- A name that is matched has a character for each element that takes one. -/
theorem length_singles_le {es : List Element} {name : Text} (h : accepts es name = true) :
    (singles es).length ≤ name.length := by
  induction es generalizing name with
  | nil => exact Nat.zero_le _
  | cons e es ih =>
    cases e with
    | many =>
      obtain ⟨rest, hrest, haccepts⟩ := accepts_many_iff.1 h
      exact Nat.le_trans (ih haccepts) (suffix_of_mem_behindMany hrest).length_le
    | one p =>
      obtain ⟨c, rest, rfl, -, haccepts⟩ := accepts_one_iff.1 h
      exact Nat.succ_le_succ (ih haccepts)

/-- A name that has no more characters than that is matched one by one. -/
theorem accepts_iff_fits {es : List Element} {name : Text} (h : (singles es).length = name.length) :
    accepts es name = true ↔ Fits (singles es) name := by
  induction es generalizing name with
  | nil =>
    obtain rfl := List.length_eq_zero_iff.1 h.symm
    exact iff_of_true rfl .nil
  | cons e es ih =>
    cases e with
    | many =>
      rw [accepts_many_iff, singles, ← ih h]
      constructor
      · rintro ⟨rest, hrest, haccepts⟩
        have hsuffix := suffix_of_mem_behindMany hrest
        have hle : name.length ≤ rest.length :=
          calc name.length = (singles es).length := h.symm
            _ ≤ rest.length := length_singles_le haccepts
        exact hsuffix.eq_of_length_le hle ▸ haccepts
      · exact fun haccepts => ⟨name, self_mem_behindMany name, haccepts⟩
    | one p =>
      cases name with
      | nil => cases h
      | cons c rest =>
        rw [accepts, Bool.and_eq_true, ih (Nat.succ.inj h), singles, Fits, Fits, List.forall₂_cons]

/-- A name that is matched holds one that has just the characters that the elements take. -/
theorem exists_fits {es : List Element} {name : Text} (h : accepts es name = true) :
    ∃ word, Fits (singles es) word := by
  induction es generalizing name with
  | nil => exact ⟨[], .nil⟩
  | cons e es ih =>
    cases e with
    | many =>
      obtain ⟨rest, -, haccepts⟩ := accepts_many_iff.1 h
      exact ih haccepts
    | one p =>
      obtain ⟨c, rest, -, hc, haccepts⟩ := accepts_one_iff.1 h
      obtain ⟨word, hword⟩ := ih haccepts
      exact ⟨c :: word, .cons hc hword⟩

/-- What takes the same words, and takes any, takes the same characters at each place. -/
theorem forall₂_alike_of_fits {ps qs : List Single} (h : ∀ word, Fits ps word ↔ Fits qs word) {word : Text}
    (hword : Fits ps word) : List.Forall₂ Single.Alike ps qs := by
  induction ps generalizing qs word with
  | nil =>
    cases hword
    cases (h []).1 .nil
    exact .nil
  | cons p ps ih =>
    cases hword with
    | @cons _ c _ rest hc hrest =>
      cases (h (c :: rest)).1 (.cons hc hrest) with
      | @cons q _ qs _ hq hqs =>
        have hcons : ∀ d rest, p.takes d = true ∧ Fits ps rest ↔ q.takes d = true ∧ Fits qs rest := by
          intro d rest
          have hd := h (d :: rest)
          rwa [Fits, Fits, List.forall₂_cons, List.forall₂_cons] at hd
        refine .cons (fun d => ?_) (ih (fun rest => ?_) hrest)
        · rw [Bool.eq_iff_iff]
          exact ⟨fun hd => ((hcons d rest).1 ⟨hd, hrest⟩).1, fun hd => ((hcons d rest).2 ⟨hd, hqs⟩).1⟩
        · exact ⟨fun hps => ((hcons c rest).1 ⟨hc, hps⟩).2, fun hqs => ((hcons c rest).2 ⟨hq, hqs⟩).2⟩

/-- Elements that match the same names, and match any, take the same characters one by one. -/
theorem forall₂_alike_of_accepts {es ds : List Element} (h : ∀ name, accepts es name = accepts ds name)
    {name : Text} (hname : accepts es name = true) :
    List.Forall₂ Single.Alike (singles es) (singles ds) := by
  -- The shortest names that are matched have as many characters as there are elements that take one.
  have hle : ∀ {es ds : List Element}, (∀ name, accepts es name = accepts ds name) →
      accepts es name = true → (singles ds).length ≤ (singles es).length := by
    intro es ds h hname
    obtain ⟨word, hword⟩ := exists_fits hname
    have hlength := List.Forall₂.length_eq hword
    rw [hlength]
    exact length_singles_le (h word ▸ (accepts_iff_fits hlength).2 hword)
  have hlength : (singles es).length = (singles ds).length :=
    Nat.le_antisymm (hle (fun word => (h word).symm) (h name ▸ hname)) (hle h hname)
  obtain ⟨word, hword⟩ := exists_fits hname
  refine forall₂_alike_of_fits (fun word => ?_) hword
  by_cases hword : (singles es).length = word.length
  · rw [← accepts_iff_fits hword, ← accepts_iff_fits (hlength ▸ hword), h]
  · refine iff_of_false (fun hfits => hword (List.Forall₂.length_eq hfits)) fun hfits => hword ?_
    rw [hlength]
    exact List.Forall₂.length_eq hfits

end BuildScript.Posix
