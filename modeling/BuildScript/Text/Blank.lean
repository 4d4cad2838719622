import BuildScript.Text.Basic

/-!
# White space

A character is blank when it has Unicode's `White_Space` property. Trimming removes blanks from the
ends of a text; it is defined on characters, so a text of blanks alone trims to nothing
(`trim_eq_nil_iff`).
-/

namespace BuildScript

/-- Unicode's `White_Space` property. -/
def isBlank (c : Char) : Bool :=
  let n := c.toNat
  (9 ≤ n && n ≤ 13) || n == 0x20 || n == 0x85 || n == 0xA0 || n == 0x1680 ||
    (0x2000 ≤ n && n ≤ 0x200A) || n == 0x2028 || n == 0x2029 || n == 0x202F || n == 0x205F ||
    n == 0x3000

namespace Text

/-- Removes the blanks at the start. -/
def trimStart (t : Text) : Text := t.dropWhile isBlank

/-- Removes the blanks at the end. -/
def trimEnd (t : Text) : Text := (t.reverse.dropWhile isBlank).reverse

/-- Removes the blanks at both ends. -/
def trim (t : Text) : Text := trimEnd (trimStart t)

/-- Cuts a text before its first blank. -/
def beforeBlank (t : Text) : Text × Text :=
  (t.takeWhile (!isBlank ·), t.dropWhile (!isBlank ·))

theorem beforeBlank_append (t : Text) : (beforeBlank t).1 ++ (beforeBlank t).2 = t :=
  List.takeWhile_append_dropWhile

theorem trimStart_eq_nil_iff {t : Text} : trimStart t = [] ↔ ∀ c ∈ t, isBlank c = true := by
  unfold trimStart
  induction t with
  | nil => simp
  | cons c rest ih =>
    by_cases hc : isBlank c = true
    · rw [List.dropWhile_cons_of_pos hc, ih]
      simp [hc]
    · rw [List.dropWhile_cons_of_neg hc]
      simp [hc]

theorem trimEnd_eq_nil_iff {t : Text} : trimEnd t = [] ↔ ∀ c ∈ t, isBlank c = true := by
  rw [trimEnd, List.reverse_eq_nil_iff]
  exact (@trimStart_eq_nil_iff t.reverse).trans (by simp only [List.mem_reverse])

theorem trim_eq_nil_iff {t : Text} : trim t = [] ↔ ∀ c ∈ t, isBlank c = true := by
  refine ⟨fun h => ?_, fun h => ?_⟩
  · have hd := trimEnd_eq_nil_iff.1 h
    have hnil : trimStart (trimStart t) = [] := trimStart_eq_nil_iff.2 hd
    exact trimStart_eq_nil_iff.1 (by
      cases hs : trimStart t with
      | nil => rfl
      | cons c rest =>
        have hhead : isBlank c = false := by
          have := List.head?_dropWhile_not isBlank t
          simpa [← trimStart.eq_1, hs] using this
        have := hd c (by simp [hs])
        simp [hhead] at this)
  · simp [trim, trimStart_eq_nil_iff.2 h, trimEnd]

end Text

end BuildScript
