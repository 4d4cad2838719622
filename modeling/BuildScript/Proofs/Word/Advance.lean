import Mathlib.Data.List.TakeWhile
import BuildScript.Proofs.Shell.Scan
import BuildScript.Proofs.Word.Characters

/-!
# One step of the reader of words

What the reader of words does at a character (`Word.advance`): what that contributes, from where the reader goes on,
and whether it looked for something that the text does not have, such as the brace of a reference. A scan does these
steps one after the other (`Word.scan_cons`).

A step may look far ahead, but unless something stays open it is told by the characters that it takes and the one
behind them (`Word.isLocal_advance`). So it is the same step when a blank and another text are put behind the text
(`Word.advance_append`), and when they are taken away again (`Word.advance_of_append`).
-/

namespace BuildScript

variable {depth : Nat} {c : Char} {rest x : Text}

/-- Whether a text is empty or begins with a blank. -/
def StartsBlank (x : Text) : Prop := ∀ d ∈ x.head?, isBlank d = true

theorem startsBlank_nil : StartsBlank [] := fun _ hd => nomatch hd

theorem startsBlank_cons (hc : isBlank c = true) (rest : Text) : StartsBlank (c :: rest) := by
  intro d hd
  rwa [← Option.some.inj hd]

/-! ## References -/

/-- The brace that closes another one is the same whatever stands behind it. -/
theorem closeBrace_append_of_eq_some {t inner after : Text} (h : closeBrace depth t = some (inner, after))
    (y : Text) : closeBrace depth (inner ++ '}' :: y) = some (inner, y) := by
  induction t generalizing depth inner with
  | nil => cases h
  | cons c rest ih =>
    rcases closeBrace_cons depth c with ⟨rfl, hclose⟩ | ⟨depth', hcons⟩
    · rw [hclose] at h
      cases h
      exact hclose y
    · rw [hcons] at h
      obtain ⟨⟨i, u⟩, hi, heq⟩ := Option.map_eq_some_iff.1 h
      cases heq
      rw [List.cons_append, hcons, ih hi]
      rfl

namespace Reference

/-- Whether a text begins with a brace that is not closed in it. -/
def isUnclosed : Text → Bool
  | [] => false
  | c :: rest => c == '{' && (closeBrace 0 rest).isNone

theorem isUnclosed_iff : isUnclosed rest = true ↔ ∃ t, rest = '{' :: t ∧ closeBrace 0 t = none := by
  cases rest <;> simp [isUnclosed]

theorem isUnclosed_cons_of_ne (hc : c ≠ '{') (t : Text) : isUnclosed (c :: t) = false := by
  rw [isUnclosed, beq_false_of_ne hc, Bool.false_and]

theorem read_of_startsBlank (hx : StartsBlank x) : read x = (.literal ['$'], x) ∧ isUnclosed x = false := by
  cases x with
  | nil => exact ⟨rfl, rfl⟩
  | cons d x =>
    have hd : isBlank d = true := hx d rfl
    have hbrace : d ≠ '{' := by
      rintro rfl
      cases hd
    have hname : isNameStart d = false := by
      by_contra hstart
      rw [isBlank_of_isNameChar (isNameChar_of_isNameStart (by simpa using hstart))] at hd
      cases hd
    exact ⟨read_of_ne hbrace hname x, isUnclosed_cons_of_ne hbrace x⟩

/-- A text that begins like what stands behind a name, or with a blank, adds nothing to the name. -/
theorem takeWhile_isNameChar_of_ends {t y : Text}
    (h : y.head? = (t.dropWhile isNameChar).head? ∨ StartsBlank y) :
    y.takeWhile isNameChar = [] ∧ y.dropWhile isNameChar = y := by
  cases y with
  | nil => exact ⟨rfl, rfl⟩
  | cons d y =>
    have hd : ¬isNameChar d = true := by
      rcases h with hhead | hblank
      · have hd := List.head?_dropWhile_not isNameChar t
        rw [← hhead] at hd
        exact Bool.eq_false_iff.1 hd
      · intro hchar
        have hd := hblank d rfl
        rw [isBlank_of_isNameChar hchar] at hd
        cases hd
    exact ⟨List.takeWhile_cons_of_neg hd, List.dropWhile_cons_of_neg hd⟩

/-- If nothing is read of a text, nothing is read of one that begins like it. -/
theorem read_of_head? {c : Char} (hbrace : c ≠ '{') (hname : isNameStart c = false) {y : Text}
    (h : y.head? = some c ∨ StartsBlank y) : read y = (.literal ['$'], y) ∧ isUnclosed y = false := by
  rcases h with hhead | hblank
  · obtain ⟨u, rfl⟩ := List.head?_eq_some_iff.1 hhead
    exact ⟨read_of_ne hbrace hname u, isUnclosed_cons_of_ne hbrace u⟩
  · exact read_of_startsBlank hblank

/-- A reference ends where it ends, whatever stands behind it, unless a name goes on there. -/
theorem exists_taken_read (h : isUnclosed rest = false) : ∃ taken, rest = taken ++ (read rest).2 ∧
    ∀ y, y.head? = (read rest).2.head? ∨ StartsBlank y →
      read (taken ++ y) = ((read rest).1, y) ∧ isUnclosed (taken ++ y) = false := by
  cases rest with
  | nil =>
    refine ⟨[], rfl, fun y hy => read_of_startsBlank (hy.elim (fun hhead => ?_) id)⟩
    rw [List.head?_eq_none_iff.1 hhead]
    exact startsBlank_nil
  | cons c rest =>
    by_cases hbrace : c = '{'
    · subst hbrace
      cases hclose : closeBrace 0 rest with
      | none =>
        rw [isUnclosed, hclose] at h
        cases h
      | some cut =>
        obtain ⟨inner, after⟩ := cut
        rw [read_of_closeBrace hclose]
        refine ⟨'{' :: (inner ++ ['}']), ?_, fun y _ => ?_⟩
        · simp [closeBrace_eq_some hclose]
        · have htext : '{' :: (inner ++ ['}']) ++ y = '{' :: (inner ++ '}' :: y) := by simp
          have hclosed := closeBrace_append_of_eq_some hclose y
          rw [htext, read_of_closeBrace hclosed, isUnclosed, hclosed]
          exact ⟨rfl, rfl⟩
    · cases hname : isNameStart c with
      | true =>
        rw [read_of_isNameStart hname]
        refine ⟨c :: rest.takeWhile isNameChar, by simp, fun y hy => ⟨?_, isUnclosed_cons_of_ne hbrace _⟩⟩
        have hall : ∀ d ∈ rest.takeWhile isNameChar, isNameChar d = true := fun _ hd => List.mem_takeWhile_imp hd
        obtain ⟨htake, hdrop⟩ := takeWhile_isNameChar_of_ends hy
        rw [List.cons_append, read_of_isNameStart hname, List.takeWhile_append_of_pos hall,
          List.dropWhile_append_of_pos hall, htake, hdrop, List.append_nil]
      | false =>
        rw [read_of_ne hbrace hname]
        exact ⟨[], rfl, fun y hy => read_of_head? hbrace hname hy⟩

end Reference

namespace Word

variable {escape : Char} {quoted : Bool}

/-! ## Characters -/

/-- What a text can leave open: a quote, an escape character with nothing behind it, and the brace of a reference. -/
inductive Unclosed where
  | singleQuote
  | doubleQuote
  | escape
  | brace
  deriving DecidableEq, Repr

/-- What a reader does at a character: what that contributes, what it opens that the text does not close, and from
where the reader goes on, inside double quotes (`quoted`) or outside. -/
structure Advance where
  mark : Mark
  opened : Option Unclosed := none
  quoted : Bool
  rest : Text

/-- What a reference contributes to the word it stands in. -/
def ofReference (escape : Char) : Reference → Word
  | .var name => .var name .nil
  | .cond name choice arg => .cond name choice (lex escape arg) .nil
  | .literal u => literal u

namespace Advance

/-- Behind a character that is read without those that follow. -/
def plain (mark : Mark) (quoted : Bool) (rest : Text) : Advance := { mark, quoted, rest }

/-- Behind a single quote. -/
def behindQuote (rest : Text) : Advance where
  mark := .part (literal (rest.takeWhile (· ≠ '\'')))
  opened := if '\'' ∈ rest then none else some .singleQuote
  quoted := false
  rest := (rest.dropWhile (· ≠ '\'')).tail

/-- Behind an escape character. -/
def behindEscape (escape : Char) (quoted : Bool) : Text → Advance
  | [] => { mark := .part (.char escape .nil), opened := some .escape, quoted, rest := [] }
  | d :: after =>
    if isProtected escape quoted d then { mark := .part (.char d .nil), quoted, rest := after }
    else { mark := .part (.char escape .nil), quoted, rest := d :: after }

/-- Behind a dollar sign. -/
def behindDollar (escape : Char) (quoted : Bool) (rest : Text) : Advance where
  mark := .part (ofReference escape (Reference.read rest).1)
  opened := if Reference.isUnclosed rest then some .brace else none
  quoted := quoted
  rest := (Reference.read rest).2

/-- Whether a reader that stops in front of `p.rest` stops in front of `y` as well: both begin with one character, or
`y` begins with no more than a blank and the reader was at the end or is outside double quotes. -/
def StopsAt (p : Advance) (y : Text) : Prop :=
  y.head? = p.rest.head? ∨ StartsBlank y ∧ (p.rest = [] ∨ p.quoted = false)

/-- Whether what is taken is the same whatever stands behind it, unless something stays open. -/
def IsLocal (f : Text → Advance) : Prop :=
  ∀ rest, (f rest).opened = none → ∃ taken, rest = taken ++ (f rest).rest ∧
    ∀ y, (f rest).StopsAt y → f (taken ++ y) = { f rest with rest := y }

theorem isLocal_plain (mark : Mark) (quoted : Bool) : IsLocal (plain mark quoted) :=
  fun _ _ => ⟨[], rfl, fun _ _ => rfl⟩

theorem isLocal_behindQuote : IsLocal behindQuote := by
  intro rest h
  have hmem : '\'' ∈ rest := by
    by_contra hmem
    rw [behindQuote, if_neg hmem] at h
    cases h
  obtain ⟨text, after, rfl, htext⟩ := List.eq_append_cons_of_mem hmem
  have hall : ∀ d ∈ text, decide (d ≠ '\'') = true := by
    intro d hd
    exact decide_eq_true fun heq => htext (heq ▸ hd)
  have hquote : ∀ y, behindQuote (text ++ '\'' :: y) =
      { mark := .part (literal text), quoted := false, rest := y } := by
    intro y
    rw [behindQuote, if_pos (by simp), List.takeWhile_append_of_pos hall, List.dropWhile_append_of_pos hall]
    simp
  rw [hquote]
  refine ⟨text ++ ['\''], by simp, fun y _ => ?_⟩
  rw [List.append_assoc, List.singleton_append, hquote]

theorem isLocal_behindEscape (escape : Char) (quoted : Bool) : IsLocal (behindEscape escape quoted) := by
  intro rest h
  cases rest with
  | nil => cases h
  | cons d after =>
    by_cases hprotected : isProtected escape quoted d = true
    · have hescape : ∀ u, behindEscape escape quoted (d :: u) = plain (.part (.char d .nil)) quoted u :=
        fun u => if_pos hprotected
      rw [hescape]
      exact ⟨[d], rfl, fun y _ => hescape y⟩
    · have hescape : ∀ u, behindEscape escape quoted (d :: u) = plain (.part (.char escape .nil)) quoted (d :: u) :=
        fun u => if_neg hprotected
      rw [hescape]
      refine ⟨[], rfl, fun y hy => ?_⟩
      rcases hy with hhead | ⟨-, hnil | hquoted⟩
      · obtain ⟨u, rfl⟩ := List.head?_eq_some_iff.1 hhead
        exact hescape u
      · cases hnil
      · -- Outside double quotes every character is protected.
        obtain rfl : quoted = false := hquoted
        exact absurd rfl hprotected

theorem isLocal_behindDollar (escape : Char) (quoted : Bool) : IsLocal (behindDollar escape quoted) := by
  intro rest h
  have hopen : Reference.isUnclosed rest = false := by
    by_contra hopen
    rw [behindDollar, if_pos (Bool.not_eq_false _ ▸ hopen)] at h
    cases h
  obtain ⟨taken, hrest, hread⟩ := Reference.exists_taken_read hopen
  refine ⟨taken, hrest, fun y hy => ?_⟩
  obtain ⟨hagain, hclosed⟩ := hread y (hy.imp_right And.left)
  rw [behindDollar, behindDollar, hagain, hclosed, hopen]

end Advance

/-- What a reader does at a character inside double quotes (`quoted`) or outside. -/
def advance (escape : Char) (quoted : Bool) (c : Char) : Text → Advance :=
  if !quoted && isBlank c then .plain .blank quoted
  else if c = '\'' ∧ quoted = false then .behindQuote
  else if c = '"' then .plain (.part .nil) (!quoted)
  else if c = escape then .behindEscape escape quoted
  else if c = '$' then .behindDollar escape quoted
  else .plain (.part (.char c .nil)) quoted

theorem advance_cases (escape : Char) (quoted : Bool) (c : Char) :
    (∃ mark after, advance escape quoted c = .plain mark after) ∨ advance escape quoted c = .behindQuote ∨
      advance escape quoted c = .behindEscape escape quoted ∨ advance escape quoted c = .behindDollar escape quoted := by
  unfold advance
  split
  · exact .inl ⟨_, _, rfl⟩
  split
  · exact .inr (.inl rfl)
  split
  · exact .inl ⟨_, _, rfl⟩
  split
  · exact .inr (.inr (.inl rfl))
  split
  · exact .inr (.inr (.inr rfl))
  · exact .inl ⟨_, _, rfl⟩

/-- A scan advances from character to character. -/
theorem scan_cons (escape : Char) (quoted : Bool) (c : Char) (rest : Text) :
    scan isBlank escape quoted (c :: rest) =
      (advance escape quoted c rest).mark ::
        scan isBlank escape (advance escape quoted c rest).quoted (advance escape quoted c rest).rest := by
  rw [scan.eq_def, advance]
  dsimp only
  split
  · rfl
  split
  · next h =>
    rw [h.2]
    rfl
  split
  · rfl
  split
  · next h =>
    subst h
    cases rest with
    | nil =>
      dsimp only [Advance.behindEscape]
      rw [scan]
    | cons d after =>
      dsimp only [Advance.behindEscape]
      split <;> rfl
  split
  · dsimp only [Advance.behindDollar]
    split <;> rename_i hread <;> rw [hread] <;> rfl
  · rfl

theorem length_advance_le (escape : Char) (quoted : Bool) (c : Char) (rest : Text) :
    (advance escape quoted c rest).rest.length ≤ rest.length := by
  rcases advance_cases escape quoted c with ⟨mark, after, h⟩ | h | h | h
  · rw [h]
    exact le_rfl
  · rw [h]
    exact ((List.tail_sublist _).trans (List.dropWhile_suffix _).sublist).length_le
  · rw [h]
    cases rest with
    | nil => exact le_rfl
    | cons d after =>
      dsimp only [Advance.behindEscape]
      split
      · exact Nat.le_succ _
      · exact le_rfl
  · rw [h]
    exact Reference.read_length rfl

theorem advance_of_isBlank (hc : isBlank c = true) : advance escape false c = .plain .blank false :=
  if_pos (by simpa using hc)

/-- Only a blank outside double quotes separates words. -/
theorem advance_eq_blank (h : (advance escape quoted c rest).mark = .blank) :
    quoted = false ∧ isBlank c = true ∧ advance escape quoted c = .plain .blank false := by
  by_cases hblank : (!quoted && isBlank c) = true
  · obtain ⟨hquoted, hc⟩ := Bool.and_eq_true_iff.1 hblank
    obtain rfl : quoted = false := by simpa using hquoted
    exact ⟨rfl, hc, advance_of_isBlank hc⟩
  · exfalso
    rw [advance, if_neg hblank] at h
    split at h
    · cases h
    split at h
    · cases h
    split at h
    · cases rest with
      | nil => cases h
      | cons d after =>
        rw [Advance.behindEscape] at h
        split at h <;> cases h
    split at h <;> cases h

theorem isLocal_advance (escape : Char) (quoted : Bool) (c : Char) : Advance.IsLocal (advance escape quoted c) := by
  rcases advance_cases escape quoted c with ⟨mark, after, h⟩ | h | h | h
  · rw [h]
    exact Advance.isLocal_plain mark after
  · rw [h]
    exact Advance.isLocal_behindQuote
  · rw [h]
    exact Advance.isLocal_behindEscape escape quoted
  · rw [h]
    exact Advance.isLocal_behindDollar escape quoted

/-- A step that leaves nothing open is the same step with a blank behind the text. -/
theorem advance_append (hx : StartsBlank x) (h : (advance escape quoted c rest).opened = none) :
    advance escape quoted c (rest ++ x) =
      { advance escape quoted c rest with rest := (advance escape quoted c rest).rest ++ x } := by
  obtain ⟨taken, hrest, htaken⟩ := isLocal_advance escape quoted c rest h
  conv_lhs => rw [hrest, List.append_assoc]
  apply htaken
  by_cases hnil : (advance escape quoted c rest).rest = []
  · rw [hnil]
    exact .inr ⟨hx, .inl hnil⟩
  · obtain ⟨d, after, heq⟩ := List.exists_cons_of_ne_nil hnil
    rw [Advance.StopsAt, heq]
    exact .inl rfl

/-- A step that leaves nothing open is the same step when a part of what it does not take is taken away from the end.
If that is all of it, the step has to stop outside double quotes. -/
theorem advance_of_append {u : Text} (h : (advance escape quoted c rest).opened = none)
    (hrest : (advance escape quoted c rest).rest = u ++ x)
    (hu : u = [] → (advance escape quoted c rest).quoted = false) :
    ∃ before, rest = before ++ x ∧ advance escape quoted c before = { advance escape quoted c rest with rest := u } := by
  obtain ⟨taken, htext, htaken⟩ := isLocal_advance escape quoted c rest h
  refine ⟨taken ++ u, ?_, htaken u ?_⟩
  · rw [List.append_assoc, ← hrest, ← htext]
  · cases u with
    | nil => exact .inr ⟨startsBlank_nil, .inr (hu rfl)⟩
    | cons d u =>
      rw [Advance.StopsAt, hrest]
      exact .inl rfl

end Word

end BuildScript
