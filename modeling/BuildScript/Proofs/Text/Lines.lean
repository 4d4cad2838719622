import Mathlib.Data.List.Basic
import BuildScript.Proofs.Text.Trim
import BuildScript.Text.Line

/-!
# Lines of a text

Where a line ends, a text can be cut in two without changing its lines (`lines_append`), and lines that
are written one after the other are read again (`lines_ofLines`, `lines_join`). A line has no line feed in
it (`notMem_of_mem_lines`).

The rows of a text are what stands between its line feeds. They differ from its lines in the carriage
returns at their ends and in an empty row after the last line feed.
-/

namespace BuildScript.Text

/-! ## Rows -/

theorem splitAt_append_cons (sep : Char) (s t : Text) :
    splitAt sep (s ++ sep :: t) = splitAt sep s ++ splitAt sep t := by
  induction s with
  | nil => simp [splitAt, pieces]
  | cons c rest ih =>
    unfold splitAt at ih ⊢
    by_cases hc : c = sep
    · simpa [pieces, hc] using ih
    · obtain ⟨hfirst, hothers⟩ := List.cons.inj ih
      simp [pieces, hc, hfirst, hothers]

theorem splitAt_of_notMem {sep : Char} {t : Text} (h : sep ∉ t) : splitAt sep t = [t] := by
  induction t with
  | nil => rfl
  | cons c rest ih =>
    rw [List.mem_cons, not_or] at h
    have hrest := ih h.2
    unfold splitAt at hrest ⊢
    obtain ⟨hfirst, hothers⟩ := List.cons.inj hrest
    simp [pieces, Ne.symm h.1, hfirst, hothers]

theorem notMem_of_mem_splitAt {sep : Char} {t row : Text} (h : row ∈ splitAt sep t) : sep ∉ row := by
  induction t generalizing row with
  | nil =>
    rw [splitAt, pieces, List.mem_singleton] at h
    rw [h]
    exact List.not_mem_nil
  | cons c rest ih =>
    have hfirst : sep ∉ (pieces sep rest).1 := ih List.mem_cons_self
    by_cases hc : c = sep
    · have hrow : row = [] ∨ row ∈ splitAt sep rest := by simpa [splitAt, pieces, hc] using h
      rcases hrow with rfl | hrow
      · exact List.not_mem_nil
      · exact ih hrow
    · have hrow : row = c :: (pieces sep rest).1 ∨ row ∈ (pieces sep rest).2 := by
        simpa [splitAt, pieces, hc] using h
      rcases hrow with rfl | hrow
      · rw [List.mem_cons, not_or]
        exact ⟨Ne.symm hc, hfirst⟩
      · exact ih (List.mem_cons_of_mem _ hrow)

/-! ## Ends of lines -/

theorem dropReturn_cases (line : Text) : dropReturn line = line ∨ line = dropReturn line ++ ['\r'] := by
  unfold dropReturn
  split
  · next rest hreverse =>
    have heq := congrArg List.reverse hreverse
    rw [List.reverse_reverse, List.reverse_cons] at heq
    exact .inr heq
  · exact .inl rfl

theorem dropReturn_of_isTrimmed {line : Text} (h : IsTrimmed line) : dropReturn line = line := by
  rcases dropReturn_cases line with hline | hline
  · exact hline
  · have hreturn := h.last '\r' (by rw [hline, List.getLast?_concat])
    cases hreturn

theorem trim_dropReturn (line : Text) : trim (dropReturn line) = trim line := by
  rcases dropReturn_cases line with hline | hline
  · rw [hline]
  · have hreturn : Blanks ['\r'] := fun c hc => List.mem_singleton.1 hc ▸ rfl
    have htrim := trim_surround blanks_nil (dropReturn line) hreturn
    rw [List.nil_append, ← hline] at htrim
    exact htrim.symm

theorem subset_of_dropReturn (line : Text) : dropReturn line ⊆ line := by
  rcases dropReturn_cases line with hline | hline
  · rw [hline]
    exact List.Subset.refl _
  · intro c hc
    rw [hline]
    exact List.mem_append_left _ hc

/-! ## Lines -/

theorem terminated_append {rows others : List Text} (h : others ≠ []) :
    terminated (rows ++ others) = rows.map dropReturn ++ terminated others := by
  induction rows with
  | nil => rfl
  | cons row rest ih =>
    obtain ⟨next, more, hnext⟩ := List.exists_cons_of_ne_nil (List.append_ne_nil_of_right_ne_nil rest h)
    rw [List.cons_append, hnext, terminated, ← hnext, ih]
    · rfl
    · simp

theorem lines_append_cons (s t : Text) :
    lines (s ++ '\n' :: t) = (splitAt '\n' s).map dropReturn ++ lines t := by
  have hne : splitAt '\n' t ≠ [] := List.cons_ne_nil _ _
  rw [lines, splitAt_append_cons, terminated_append hne, lines]

/-- A text can be cut after a line feed. -/
theorem lines_append {s : Text} (h : s.getLast? = some '\n') (t : Text) :
    lines (s ++ t) = lines s ++ lines t := by
  obtain ⟨front, rfl⟩ := List.getLast?_eq_some_iff.1 h
  have hnil : lines [] = [] := rfl
  rw [List.append_assoc, List.singleton_append, lines_append_cons, lines_append_cons, hnil,
    List.append_nil]

theorem lines_cons {line : Text} (hfeed : '\n' ∉ line) (htrimmed : IsTrimmed line) (t : Text) :
    lines (line ++ '\n' :: t) = line :: lines t := by
  rw [lines_append_cons, splitAt_of_notMem hfeed, List.map_singleton, dropReturn_of_isTrimmed htrimmed]
  rfl

theorem lines_ofLines {ls : List Text} (hfeed : ∀ line ∈ ls, '\n' ∉ line)
    (htrimmed : ∀ line ∈ ls, IsTrimmed line) : lines (ofLines ls) = ls := by
  induction ls with
  | nil => rfl
  | cons line rest ih =>
    obtain ⟨hline, hrest⟩ := List.forall_mem_cons.1 hfeed
    obtain ⟨hlineTrimmed, hrestTrimmed⟩ := List.forall_mem_cons.1 htrimmed
    have hof : ofLines (line :: rest) = line ++ '\n' :: ofLines rest := by simp [ofLines]
    rw [hof, lines_cons hline hlineTrimmed, ih hrest hrestTrimmed]

theorem lines_join {ls : List Text} (hfeed : ∀ line ∈ ls, '\n' ∉ line)
    (htrimmed : ∀ line ∈ ls, IsTrimmed line) (hne : ∀ line ∈ ls, line ≠ []) :
    lines (join ['\n'] ls) = ls := by
  induction ls with
  | nil => rfl
  | cons line rest ih =>
    obtain ⟨hline, hrest⟩ := List.forall_mem_cons.1 hfeed
    obtain ⟨hlineTrimmed, hrestTrimmed⟩ := List.forall_mem_cons.1 htrimmed
    obtain ⟨hlineNe, hrestNe⟩ := List.forall_mem_cons.1 hne
    by_cases hnil : rest = []
    · rw [hnil, join, lines, splitAt_of_notMem hline, terminated, if_neg hlineNe]
    · rw [join_cons hnil, List.append_assoc, List.singleton_append, lines_cons hline hlineTrimmed,
        ih hrest hrestTrimmed hrestNe]

/-- Every line is a row without the carriage return at its end. -/
theorem exists_row_of_mem_terminated {rows : List Text} {line : Text} (h : line ∈ terminated rows) :
    ∃ row ∈ rows, line = row ∨ line = dropReturn row := by
  induction rows using terminated.induct with
  | case1 => cases h
  | case2 => cases h
  | case3 last hlast =>
    rw [terminated, if_neg hlast] at h
    exact ⟨last, List.mem_singleton_self _, .inl (List.mem_singleton.1 h)⟩
  | case4 row others hne ih =>
    rw [terminated.eq_3 _ _ hne, List.mem_cons] at h
    rcases h with rfl | h
    · exact ⟨row, List.mem_cons_self, .inr rfl⟩
    · obtain ⟨other, hother, hline⟩ := ih h
      exact ⟨other, List.mem_cons_of_mem _ hother, hline⟩

theorem notMem_of_mem_lines {t line : Text} (h : line ∈ lines t) : '\n' ∉ line := by
  obtain ⟨row, hrow, hline⟩ := exists_row_of_mem_terminated h
  have hfeed := notMem_of_mem_splitAt hrow
  rcases hline with rfl | rfl
  · exact hfeed
  · exact fun hmem => hfeed (subset_of_dropReturn row hmem)

/-- Lines and rows are the same but for blanks at their ends and for empty ones. -/
theorem filter_map_trim_lines {keep : Text → Bool} (hkeep : keep [] = false) (t : Text) :
    ((lines t).map trim).filter keep = ((splitAt '\n' t).map trim).filter keep := by
  unfold lines
  generalize splitAt '\n' t = rows
  induction rows using terminated.induct with
  | case1 => rfl
  | case2 =>
    have hnil : trim [] = [] := rfl
    rw [List.map_singleton, hnil, List.filter_singleton, hkeep]
    rfl
  | case3 last hlast => rw [terminated, if_neg hlast]
  | case4 row others hne ih =>
    rw [terminated.eq_3 _ _ hne, List.map_cons, List.map_cons, List.filter_cons, List.filter_cons,
      trim_dropReturn, ih]

end BuildScript.Text
