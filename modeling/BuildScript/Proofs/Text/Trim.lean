import Mathlib.Data.List.Basic
import Mathlib.Data.List.TakeWhile
import BuildScript.Text.Blank

/-!
# Trimmed texts

A text is what it is trimmed to between blanks (`exists_trim`), and the text between blanks is found
again, whatever the blanks are (`trim_surround`).
-/

namespace BuildScript.Text

/-- Whether a text has blanks only. -/
def Blanks (t : Text) : Prop := ∀ c ∈ t, isBlank c = true

theorem blanks_nil : Blanks [] := fun _ hc => (nomatch hc)

theorem Blanks.append {s t : Text} (hs : Blanks s) (ht : Blanks t) : Blanks (s ++ t) := by
  intro c hc
  rcases List.mem_append.1 hc with hc | hc
  · exact hs c hc
  · exact ht c hc

/-- Whether a text neither begins nor ends with a blank. -/
structure IsTrimmed (t : Text) : Prop where
  first : ∀ c, t.head? = some c → isBlank c = false
  last : ∀ c, t.getLast? = some c → isBlank c = false

theorem trimStart_append {before : Text} (h : Blanks before) (t : Text) :
    trimStart (before ++ t) = trimStart t :=
  List.dropWhile_append_of_pos h

theorem trimEnd_append (t : Text) {after : Text} (h : Blanks after) :
    trimEnd (t ++ after) = trimEnd t := by
  unfold trimEnd
  rw [List.reverse_append, List.dropWhile_append_of_pos]
  intro c hc
  exact h c (List.mem_reverse.1 hc)

theorem trimStart_eq_self {t : Text} (h : ∀ c, t.head? = some c → isBlank c = false) :
    trimStart t = t := by
  cases t with
  | nil => rfl
  | cons c rest =>
    have hc := h c rfl
    exact List.dropWhile_cons_of_neg (by simp [hc])

theorem trimEnd_eq_self {t : Text} (h : ∀ c, t.getLast? = some c → isBlank c = false) :
    trimEnd t = t := by
  have hreverse : trimStart t.reverse = t.reverse := by
    apply trimStart_eq_self
    intro c hc
    exact h c (by rwa [List.head?_reverse] at hc)
  exact (congrArg List.reverse hreverse).trans (List.reverse_reverse t)

theorem exists_trimStart (t : Text) : ∃ before, Blanks before ∧ t = before ++ trimStart t :=
  ⟨t.takeWhile isBlank, fun _ hc => List.mem_takeWhile_imp hc, List.takeWhile_append_dropWhile.symm⟩

theorem exists_trimEnd (t : Text) : ∃ after, Blanks after ∧ t = trimEnd t ++ after := by
  obtain ⟨before, hbefore, heq⟩ := exists_trimStart t.reverse
  refine ⟨before.reverse, ?_, ?_⟩
  · intro c hc
    exact hbefore c (List.mem_reverse.1 hc)
  · have hreverse := congrArg List.reverse heq
    rwa [List.reverse_reverse, List.reverse_append] at hreverse

theorem exists_trim (t : Text) :
    ∃ before after, Blanks before ∧ Blanks after ∧ t = before ++ trim t ++ after := by
  obtain ⟨before, hbefore, hstart⟩ := exists_trimStart t
  obtain ⟨after, hafter, hend⟩ := exists_trimEnd (trimStart t)
  refine ⟨before, after, hbefore, hafter, ?_⟩
  rw [List.append_assoc]
  exact hstart.trans (congrArg (before ++ ·) hend)

theorem not_isBlank_of_getLast?_trimEnd {t : Text} {c : Char} (h : (trimEnd t).getLast? = some c) :
    isBlank c = false := by
  have hhead := List.head?_dropWhile_not isBlank t.reverse
  rw [trimEnd, List.getLast?_reverse] at h
  simpa [h] using hhead

theorem isTrimmed_trim (t : Text) : IsTrimmed (trim t) := by
  refine ⟨?_, fun c hc => not_isBlank_of_getLast?_trimEnd hc⟩
  intro c hc
  obtain ⟨after, -, heq⟩ := exists_trimEnd (trimStart t)
  have hhead := List.head?_dropWhile_not isBlank t
  have hstart : (trimStart t).head? = some c := by
    rw [heq, List.head?_append]
    exact Option.or_eq_some_iff.2 (.inl hc)
  rw [← trimStart, hstart] at hhead
  simpa using hhead

/-- The text between blanks is found again, if it is trimmed itself. -/
theorem IsTrimmed.trim_surround {t : Text} (ht : IsTrimmed t) {before after : Text}
    (hbefore : Blanks before) (hafter : Blanks after) : trim (before ++ t ++ after) = t := by
  by_cases hnil : t = []
  · rw [hnil, trim_eq_nil_iff, List.append_nil]
    exact hbefore.append hafter
  · have hhead : ∀ c, (t ++ after).head? = some c → isBlank c = false := by
      intro c hc
      rw [List.head?_append_of_ne_nil t hnil] at hc
      exact ht.first c hc
    rw [trim, List.append_assoc, trimStart_append hbefore, trimStart_eq_self hhead,
      trimEnd_append t hafter, trimEnd_eq_self ht.last]

theorem IsTrimmed.trim_eq {t : Text} (ht : IsTrimmed t) : trim t = t := by
  have h := ht.trim_surround blanks_nil blanks_nil
  rwa [List.nil_append, List.append_nil] at h

theorem isTrimmed_iff {t : Text} : IsTrimmed t ↔ trim t = t :=
  ⟨IsTrimmed.trim_eq, fun h => h ▸ isTrimmed_trim t⟩

@[simp] theorem trim_trim (t : Text) : trim (trim t) = trim t := (isTrimmed_trim t).trim_eq

/-- Blanks around a text do not change what it is trimmed to. -/
theorem trim_surround {before after : Text} (hbefore : Blanks before) (t : Text)
    (hafter : Blanks after) : trim (before ++ t ++ after) = trim t := by
  obtain ⟨before', after', hbefore', hafter', heq⟩ := exists_trim t
  have hwhole : before ++ t ++ after = (before ++ before') ++ trim t ++ (after' ++ after) := by
    conv => lhs; rw [heq]
    simp only [List.append_assoc]
  rw [hwhole]
  exact (isTrimmed_trim t).trim_surround (hbefore.append hbefore') (hafter'.append hafter)

@[simp] theorem trimEnd_trim (t : Text) : trimEnd (trim t) = trim t :=
  trimEnd_eq_self (isTrimmed_trim t).last

/-- Without the blanks at its end alone, a text keeps those at its start. -/
theorem exists_trimEnd_eq (t : Text) : ∃ before, Blanks before ∧ trimEnd t = before ++ trim t := by
  obtain ⟨before, after, hbefore, hafter, heq⟩ := exists_trim t
  by_cases hnil : trim t = []
  · refine ⟨[], blanks_nil, ?_⟩
    rw [hnil, List.append_nil, trimEnd_eq_nil_iff]
    exact trim_eq_nil_iff.1 hnil
  · refine ⟨before, hbefore, ?_⟩
    conv => lhs; rw [heq]
    rw [trimEnd_append _ hafter]
    apply trimEnd_eq_self
    intro c hc
    rw [List.getLast?_append_of_ne_nil before hnil] at hc
    exact (isTrimmed_trim t).last c hc

/-- A text ends, but for blanks, in the character that it ends in when it is trimmed. -/
theorem getLast?_trimEnd (t : Text) : (trimEnd t).getLast? = (trim t).getLast? := by
  obtain ⟨before, -, heq⟩ := exists_trimEnd_eq t
  by_cases hnil : trim t = []
  · rw [hnil, trimEnd_eq_nil_iff.2 (trim_eq_nil_iff.1 hnil)]
  · rw [heq, List.getLast?_append_of_ne_nil before hnil]

/-- A text is cut before its first blank into what has no blank and what begins with one. -/
theorem isBlank_of_head?_beforeBlank (t : Text) : ∀ c ∈ (beforeBlank t).2.head?, isBlank c = true := by
  intro c hc
  have hhead := List.head?_dropWhile_not (!isBlank ·) t
  rw [beforeBlank, Option.mem_def] at hc
  rw [hc] at hhead
  simpa using hhead

theorem trim_eq_trimStart {t : Text} (h : ∀ c, t.getLast? = some c → isBlank c = false) :
    trim t = trimStart t := by
  obtain ⟨before, -, heq⟩ := exists_trimStart t
  refine trimEnd_eq_self fun c hc => h c ?_
  rw [heq, List.getLast?_append, hc]
  rfl

end BuildScript.Text
