import BuildScript.Proofs.Compile.Rendering

/-!
# Rendered scripts

A script is built by edits of a new one (`Script.built`). Edits only add lines (`prologue_edited`,
`statements_edited`), and those that are there keep their place when statements are added.

The text of a script is cut at its line feeds into the lines again (`splitAt_of_render_eq`), so it tells them. A
script has no text exactly if one of its lines would not be one line, and then it is the first such line that is
told (`render_eq_error_iff`).
-/

namespace BuildScript

open Text (Unbroken)

theorem Text.splitAt_ofLines {ls : List Text} (h : ∀ line ∈ ls, '\n' ∉ line) :
    splitAt '\n' (ofLines ls) = ls ++ [[]] := by
  induction ls with
  | nil => rfl
  | cons line rest ih =>
    obtain ⟨hline, hrest⟩ := List.forall_mem_cons.1 h
    have hof : ofLines (line :: rest) = line ++ '\n' :: ofLines rest := by simp [ofLines]
    rw [hof, splitAt_append_cons, splitAt_of_notMem hline, ih hrest]
    rfl

theorem Text.unbroken_iff {t : Text} : Unbroken t ↔ '\n' ∉ t ∧ '\x00' ∉ t := by
  constructor
  · intro h
    exact ⟨fun hfeed => (h _ hfeed).1 rfl, fun hnul => (h _ hnul).2 rfl⟩
  · rintro ⟨hfeed, hnul⟩ c hc
    exact ⟨fun heq => hfeed (heq ▸ hc), fun heq => hnul (heq ▸ hc)⟩

namespace Script

/-! ## Histories -/

/-- One way to add lines to a script. -/
inductive Edit where
  | naming (name : Text)
  | push (line : Text)
  | extend (lines : List Text)

namespace Edit

def apply (s : Script) : Edit → Script
  | .naming name => s.naming name
  | .push line => s.push line
  | .extend lines => s.extend lines

/-- The lines that an edit adds to the prologue. -/
def comments : Edit → List Text
  | .naming name => ["# translated from ".toList ++ name]
  | _ => []

/-- The lines that an edit adds to the statements. -/
def statements : Edit → List Text
  | .naming _ => []
  | .push line => [line]
  | .extend lines => lines

theorem prologue_apply (s : Script) (e : Edit) : (e.apply s).prologue = s.prologue ++ e.comments := by
  cases e with
  | naming name => rfl
  | push line | extend lines => exact (List.append_nil _).symm

theorem statements_apply (s : Script) (e : Edit) : (e.apply s).statements = s.statements ++ e.statements := by
  cases e with
  | naming name => exact (List.append_nil _).symm
  | push line | extend lines => rfl

end Edit

/-- A script after some edits. -/
def edited (s : Script) (edits : List Edit) : Script := edits.foldl Edit.apply s

/-- A new script after some edits. -/
def built (shell : Text) (edits : List Edit) : Script := (new shell).edited edits

theorem prologue_edited (s : Script) (edits : List Edit) :
    (s.edited edits).prologue = s.prologue ++ edits.flatMap Edit.comments := by
  induction edits generalizing s with
  | nil => exact (List.append_nil _).symm
  | cons e rest ih =>
    have hstep : (s.edited (e :: rest)).prologue = (e.apply s).prologue ++ rest.flatMap Edit.comments := ih _
    rw [hstep, Edit.prologue_apply, List.append_assoc, List.flatMap_cons]

theorem statements_edited (s : Script) (edits : List Edit) :
    (s.edited edits).statements = s.statements ++ edits.flatMap Edit.statements := by
  induction edits generalizing s with
  | nil => exact (List.append_nil _).symm
  | cons e rest ih =>
    have hstep : (s.edited (e :: rest)).statements = (e.apply s).statements ++ rest.flatMap Edit.statements := ih _
    rw [hstep, Edit.statements_apply, List.append_assoc, List.flatMap_cons]

/-- Edits that name nothing leave the lines of a script in their place. -/
theorem lines_edited {more : List Edit} (h : ∀ e ∈ more, e.comments = []) (s : Script) :
    (s.edited more).lines = s.lines ++ more.flatMap Edit.statements := by
  rw [lines, prologue_edited, statements_edited, List.flatMap_eq_nil_iff.2 h, List.append_nil, ← List.append_assoc]
  rfl

/-! ## Texts -/

/-- Whether the line at a place is the first one that would not be one line. -/
def IsFirstBroken (ls : List Text) (i : Nat) : Prop :=
  ∃ line, ls[i]? = some line ∧ ¬Unbroken line ∧ ∀ j < i, ∀ earlier, ls[j]? = some earlier → Unbroken earlier

theorem isBroken_iff {t : Text} : isBroken t = true ↔ ¬Unbroken t := by
  rw [← isBroken_eq_false_iff, Bool.not_eq_false]

theorem findIdx?_isBroken_iff {ls : List Text} {i : Nat} :
    ls.findIdx? isBroken = some i ↔ IsFirstBroken ls i := by
  rw [List.findIdx?_eq_some_iff_getElem]
  constructor
  · rintro ⟨hi, hbroken, hearlier⟩
    refine ⟨ls[i], List.getElem?_eq_getElem hi, isBroken_iff.1 hbroken, fun j hj earlier heq => ?_⟩
    obtain ⟨hlt, rfl⟩ := List.getElem?_eq_some_iff.1 heq
    exact isBroken_eq_false_iff.1 (by simpa using hearlier j hj)
  · rintro ⟨line, hline, hbroken, hearlier⟩
    obtain ⟨hi, rfl⟩ := List.getElem?_eq_some_iff.1 hline
    refine ⟨hi, isBroken_iff.2 hbroken, fun j hj => ?_⟩
    have hfalse := isBroken_eq_false_iff.2 (hearlier j hj ls[j] (List.getElem?_eq_getElem _))
    simp [hfalse]

theorem IsFirstBroken.append {ls : List Text} {i : Nat} (h : IsFirstBroken ls i) (more : List Text) :
    IsFirstBroken (ls ++ more) i := by
  obtain ⟨line, hline, hbroken, hearlier⟩ := h
  have hi : i < ls.length := (List.getElem?_eq_some_iff.1 hline).1
  refine ⟨line, by rwa [List.getElem?_append_left hi], hbroken, fun j hj earlier heq => ?_⟩
  rw [List.getElem?_append_left (by omega)] at heq
  exact hearlier j hj earlier heq

/-- The number of a line can be read from the message. -/
theorem RenderError.eq_of_message_eq {e e' : RenderError} (h : e.message = e'.message) : e = e' := by
  have hdigits : Text.ofNat e.index = Text.ofNat e'.index :=
    List.append_cancel_left (List.append_cancel_right h)
  have hindex := congrArg (fun t => Nat.ofDigitChars 10 t 0) hdigits
  simp only [Text.ofNat, Nat.ofDigitChars_toDigits (b := 10) (by decide) (by decide)] at hindex
  obtain ⟨index⟩ := e
  rw [show index = e'.index from hindex]

theorem render_eq_error_iff {s : Script} {e : RenderError} :
    s.render = .error e ↔ IsFirstBroken s.lines e.index := by
  obtain ⟨index⟩ := e
  rw [← findIdx?_isBroken_iff, render]
  cases s.lines.findIdx? isBroken with
  | none => simp
  | some i => simp

theorem render_eq_ok_iff {s : Script} {t : Text} :
    s.render = .ok t ↔ (∀ line ∈ s.lines, Unbroken line) ∧ Text.ofLines s.lines = t := by
  have hunbroken : s.lines.findIdx? isBroken = none ↔ ∀ line ∈ s.lines, Unbroken line := by
    simp only [List.findIdx?_eq_none_iff, isBroken_eq_false_iff]
  rw [← hunbroken, render]
  cases s.lines.findIdx? isBroken with
  | none => simp [Text.ofLines]
  | some i => simp

/-- The text of a script is cut at its line feeds into the lines of the script, and nothing behind the last. -/
theorem splitAt_of_render_eq {s : Script} {t : Text} (h : s.render = .ok t) :
    Text.splitAt '\n' t = s.lines ++ [[]] := by
  obtain ⟨hunbroken, rfl⟩ := render_eq_ok_iff.1 h
  exact Text.splitAt_ofLines fun line hline hfeed => (hunbroken line hline '\n' hfeed).1 rfl

/-- What a script is rendered to, whatever edits it was built by. It has a text exactly if no line has a line feed
or a NUL; the text is then cut at its line feeds into the lines, those of the prologue before the statements, and
an empty rest, so scripts with other lines have other texts. Else the error tells the number of the first line
that has one, which can be read from its message. Adding statements leaves the lines that are there in their
place, and a script that has no text has none for the same reason. -/
theorem render_built (shell : Text) (edits : List Edit) :
    ((∃ t, (built shell edits).render = .ok t) ↔
      ∀ line ∈ (built shell edits).lines, '\n' ∉ line ∧ '\x00' ∉ line) ∧
    (∀ t, (built shell edits).render = .ok t →
      Text.splitAt '\n' t = (built shell edits).prologue ++ (built shell edits).statements ++ [[]] ∧
        ∀ shell' edits', (built shell' edits').lines ≠ (built shell edits).lines →
          (built shell' edits').render ≠ .ok t) ∧
    (∀ e, (built shell edits).render = .error e ↔ IsFirstBroken (built shell edits).lines e.index) ∧
    (∀ e e' : RenderError, e.message = e'.message → e = e') ∧
    ∀ more : List Edit, (∀ e ∈ more, e.comments = []) →
      (built shell (edits ++ more)).lines = (built shell edits).lines ++ more.flatMap Edit.statements ∧
        ∀ e, (built shell edits).render = .error e → (built shell (edits ++ more)).render = .error e := by
  refine ⟨?_, fun t ht => ⟨splitAt_of_render_eq ht, fun shell' edits' hne ht' => hne ?_⟩,
    fun e => render_eq_error_iff, fun e e' => RenderError.eq_of_message_eq, fun more hmore => ?_⟩
  · simp only [render_eq_ok_iff, exists_and_left, exists_eq', and_true]
    exact forall₂_congr fun line _ => Text.unbroken_iff
  · have hrows := splitAt_of_render_eq ht'
    rw [splitAt_of_render_eq ht] at hrows
    exact (List.append_cancel_right hrows).symm
  · have hlines : (built shell (edits ++ more)).lines =
        (built shell edits).lines ++ more.flatMap Edit.statements := by
      rw [built, edited, List.foldl_append]
      exact lines_edited hmore (built shell edits)
    refine ⟨hlines, fun e he => ?_⟩
    rw [render_eq_error_iff] at he ⊢
    rw [hlines]
    exact he.append _

/-- A script whose second statement has a line feed, with a carriage return and an empty line before it, and the
same script without that statement. -/
theorem render_built_feed :
    let edits : List Edit := [.push "a\r".toList, .naming "D".toList, .extend [[]]]
    let bad := edits ++ [.push "b\nc".toList]
    (∃ t, (built defaultShell edits).render = .ok t ∧
      Text.splitAt '\n' t = ["#!/bin/sh", "set -e", "# translated from D", "a\r", "", ""].map String.toList ∧
      (built defaultShell bad).render ≠ .ok t) ∧
    (built defaultShell bad).render = .error ⟨5⟩ ∧
    (built defaultShell (bad ++ [.push "\x00".toList])).render = .error ⟨5⟩ := by
  intro edits bad
  obtain ⟨hsome, htext, -⟩ := render_built defaultShell edits
  obtain ⟨t, ht⟩ := hsome.2 (by decide)
  obtain ⟨hrows, hother⟩ := htext t ht
  obtain ⟨-, -, herror, -, hmore⟩ := render_built defaultShell bad
  have hbad : (built defaultShell bad).render = .error ⟨5⟩ := by
    rw [herror]
    exact findIdx?_isBroken_iff.1 (by decide)
  refine ⟨⟨t, ht, hrows, hother defaultShell bad (by decide)⟩, hbad, ?_⟩
  exact (hmore [.push "\x00".toList] (by simp [Edit.comments])).2 _ hbad

end Script

end BuildScript
