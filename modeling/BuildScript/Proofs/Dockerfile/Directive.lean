import BuildScript.Dockerfile.Escape

/-!
# Directives at the top of a text

The escape character is the one that the directives at the top choose. They end at the first line that is
none, so nothing after such a line can choose another one (`escapeOfLines_append`).
-/

namespace BuildScript

/-- Whether a line is a comment `# key=value` with a key of ASCII letters and digits. -/
def IsDirective (line : Text) : Prop :=
  ∃ key value : Text, Text.trim line = '#' :: key ++ '=' :: value ∧ '=' ∉ key ∧
    Text.trim key ≠ [] ∧ ∀ c ∈ Text.trim key, c.isAlphanum = true

theorem isDirective_of_directive? {line key value : Text} (h : directive? line = some (key, value)) :
    IsDirective line := by
  unfold directive? at h
  split at h
  · next body hbody =>
    split at h
    · next before after hcut =>
      obtain ⟨heq, hmem⟩ := Text.cutAt_eq_some hcut
      by_cases hkey : (!(Text.trim before).isEmpty && (Text.trim before).all Char.isAlphanum) = true
      · rw [Bool.and_eq_true, List.all_eq_true] at hkey
        refine ⟨before, after, ?_, hmem, ?_, hkey.2⟩
        · rw [hbody, heq]
          rfl
        · intro hnil
          rw [hnil] at hkey
          exact absurd hkey.1 (by decide)
      · simp only [hkey] at h
        cases h
    · cases h
  · cases h

theorem directive?_ne_none {line : Text} (h : IsDirective line) : directive? line ≠ none := by
  obtain ⟨key, value, hline, hmem, hne, hall⟩ := h
  have hkey : (!(Text.trim key).isEmpty && (Text.trim key).all Char.isAlphanum) = true := by
    rw [Bool.and_eq_true, List.all_eq_true]
    exact ⟨by simpa using hne, hall⟩
  rw [directive?, hline]
  simp [Text.cutAt_append hmem, hkey]

theorem directive?_eq_none_iff {line : Text} : directive? line = none ↔ ¬IsDirective line := by
  constructor
  · intro hnone h
    exact directive?_ne_none h hnone
  · intro h
    cases hline : directive? line with
    | none => rfl
    | some found => exact absurd (isDirective_of_directive? hline) h

theorem escapeOfLines_append {ls : List Text} (h : ∃ line ∈ ls, ¬IsDirective line) (ms : List Text) :
    escapeOfLines (ls ++ ms) = escapeOfLines ls := by
  induction ls with
  | nil =>
    obtain ⟨line, hline, -⟩ := h
    cases hline
  | cons first rest ih =>
    rw [List.cons_append, escapeOfLines, escapeOfLines]
    cases hfirst : directive? first with
    | none => rfl
    | some found =>
      have hrest : ∃ line ∈ rest, ¬IsDirective line := by
        obtain ⟨line, hline, hnot⟩ := h
        rcases List.mem_cons.1 hline with rfl | hline
        · exact absurd (isDirective_of_directive? hfirst) hnot
        · exact ⟨line, hline, hnot⟩
      simp only [ih hrest]

theorem escapeOfLines_cases (ls : List Text) : escapeOfLines ls = '\\' ∨ escapeOfLines ls = '\x60' := by
  induction ls with
  | nil => exact .inl rfl
  | cons first rest ih =>
    unfold escapeOfLines
    split
    · exact .inl rfl
    · split
      · split
        · exact .inr rfl
        · exact .inl rfl
      · exact ih

theorem escapeOf_cases (input : Text) : escapeOf input = '\\' ∨ escapeOf input = '\x60' :=
  escapeOfLines_cases _

/-- The directive that chooses an escape character. -/
def escapeLine (escape : Char) : Text := "# escape=".toList ++ [escape]

theorem escapeOfLines_escapeLine {escape : Char} (h : escape = '\\' ∨ escape = '\x60')
    (rest : List Text) : escapeOfLines (escapeLine escape :: rest) = escape := by
  rcases h with rfl | rfl
  · have hdirective : directive? (escapeLine '\\') = some ("escape".toList, ['\\']) := by decide
    rw [escapeOfLines, hdirective]
    rfl
  · have hdirective : directive? (escapeLine '\x60') = some ("escape".toList, ['\x60']) := by decide
    rw [escapeOfLines, hdirective]
    rfl

end BuildScript
