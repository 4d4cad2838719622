import BuildScript.Proofs.Dockerfile.Groups

/-!
# The texts of logical lines

A logical text is a line that would be kept as it is: it is trimmed, says something and is no comment
(`isLogical_of_mem_texts`). All but the last one end in something else than the escape character
(`getLast?_ne_of_mem_dropLast_texts`). So lines that are such texts are their own logical lines
(`joinGroups_eq_self`).
-/

namespace BuildScript.LogicalLine

open Text (Blanks IsTrimmed)

variable {escape : Char}

/-- Whether a text stands on a line of its own as an instruction does. -/
structure IsLogical (t : Text) : Prop where
  ne_nil : t ≠ []
  trimmed : IsTrimmed t
  noFeed : '\n' ∉ t
  noComment : t.head? ≠ some '#'

theorem IsLogical.isKept {t : Text} (h : IsLogical t) : isKept t = true := by
  have htrim := h.trimmed.trim_eq
  simp [LogicalLine.isKept, htrim, h.ne_nil, h.noComment]

/-! ## Contents of lines -/

theorem isTrimmed_content (escape : Char) (line : Text) : IsTrimmed (content escape line) :=
  Text.isTrimmed_trim _

theorem content_subset (escape : Char) (line : Text) : content escape line ⊆ line := by
  obtain ⟨before, between, after, -, -, -, hline⟩ := exists_content escape line
  intro c hc
  rw [hline]
  simp [hc]

/-- The blanks before a line are no part of its content, so the line begins as its content does. -/
theorem head?_content {line : Text} (h : content escape line ≠ []) :
    (content escape line).head? = (Text.trim line).head? := by
  obtain ⟨before, between, after, hbefore, -, -, hline⟩ := exists_content escape (Text.trim line)
  rw [content_trim] at hline
  cases before with
  | nil =>
    conv => rhs; rw [hline]
    rw [List.nil_append, List.append_assoc, List.append_assoc, List.head?_append_of_ne_nil _ h]
  | cons c rest =>
    have hc : isBlank c = true := hbefore c List.mem_cons_self
    have hfirst : isBlank c = false := by
      apply (Text.isTrimmed_trim line).first
      rw [hline]
      rfl
    rw [hfirst] at hc
    cases hc

theorem head?_content_ne {line : Text} (h : content escape line ≠ []) (hkept : isKept line = true) :
    (content escape line).head? ≠ some '#' := by
  rw [head?_content h]
  simp only [isKept, decide_eq_true_eq] at hkept
  exact hkept.2

theorem content_of_not_marked {line : Text} (h : isMarked escape line = false) :
    content escape line = Text.trim line := by
  rw [content, h]
  rfl

theorem getLast?_content_ne {line : Text} (h : isMarked escape line = false) :
    (content escape line).getLast? ≠ some escape := by
  rw [content_of_not_marked h, ← Text.getLast?_trimEnd]
  simpa [isMarked] using h

/-! ## Joined contents -/

theorem exists_of_mem_pieces {ls : List Text} {t : Text} (h : t ∈ pieces escape ls) :
    ∃ line ∈ ls, t = content escape line ∧ content escape line ≠ [] := by
  obtain ⟨hmem, hne⟩ := List.mem_filter.1 h
  obtain ⟨line, hline, rfl⟩ := List.mem_map.1 hmem
  exact ⟨line, hline, rfl, by simpa using hne⟩

theorem isLogical_joined {ls : List Text} (hkept : ∀ line ∈ ls, isKept line = true)
    (hfeed : ∀ line ∈ ls, '\n' ∉ line) (hne : joined escape ls ≠ []) :
    IsLogical (joined escape ls) := by
  have hpieces : pieces escape ls ≠ [] := fun hnil => hne (joined_eq_nil_iff.2 hnil)
  refine ⟨hne, ⟨?_, ?_⟩, ?_, ?_⟩
  · obtain ⟨t, rest, heq⟩ := List.exists_cons_of_ne_nil hpieces
    obtain ⟨line, -, rfl, ht⟩ := exists_of_mem_pieces (heq ▸ List.mem_cons_self)
    rw [joined, heq, Text.head?_join_cons ht]
    exact (isTrimmed_content escape line).first
  · have heq := List.dropLast_append_getLast hpieces
    obtain ⟨line, -, hlast, ht⟩ := exists_of_mem_pieces (List.getLast_mem hpieces)
    rw [joined, ← heq, hlast, Text.getLast?_join_append_singleton ht]
    exact (isTrimmed_content escape line).last
  · intro hmem
    rcases Text.mem_join hmem with hmem | ⟨t, ht, hmem⟩
    · rw [List.mem_singleton] at hmem
      cases hmem
    · obtain ⟨line, hline, rfl, -⟩ := exists_of_mem_pieces ht
      exact hfeed line hline (content_subset escape line hmem)
  · obtain ⟨t, rest, heq⟩ := List.exists_cons_of_ne_nil hpieces
    obtain ⟨line, hline, rfl, ht⟩ := exists_of_mem_pieces (heq ▸ List.mem_cons_self)
    rw [joined, heq, Text.head?_join_cons ht]
    exact head?_content_ne ht (hkept line hline)

/-- Lines that are closed by one that is not marked do not end in the escape character. -/
theorem getLast?_joined_ne {front : List Text} {last : Text} (hkept : isKept last = true)
    (hmarked : isMarked escape last = false) :
    (joined escape (front ++ [last])).getLast? ≠ some escape := by
  have hne : content escape last ≠ [] := by
    rw [content_of_not_marked hmarked]
    simp only [isKept, decide_eq_true_eq] at hkept
    exact hkept.1
  have hlast : pieces escape [last] = [content escape last] := by simp [pieces, hne]
  rw [joined, pieces_append, hlast, Text.getLast?_join_append_singleton hne]
  exact getLast?_content_ne hmarked

/-! ## Texts of an input -/

theorem mem_of_mem_groups {marked : Text → Bool} {ls group : List Text}
    (hgroup : group ∈ groups marked ls) {line : Text} (hline : line ∈ group) : line ∈ ls := by
  have hmem := List.mem_flatten.2 ⟨group, hgroup, hline⟩
  rwa [groups, List.flatten_splitBy] at hmem

theorem isKept_of_mem_keptLines {input line : Text} (h : line ∈ (keptLines input).map Prod.fst) :
    isKept line = true ∧ '\n' ∉ line := by
  rw [map_fst_keptLines] at h
  obtain ⟨hline, hkept⟩ := List.mem_filter.1 h
  exact ⟨hkept, Text.notMem_of_mem_lines hline⟩

theorem isLogical_of_mem_texts {input t : Text} (h : t ∈ texts escape input) : IsLogical t := by
  rw [texts_eq_joinGroups] at h
  obtain ⟨hmem, hne⟩ := List.mem_filter.1 h
  obtain ⟨group, hgroup, rfl⟩ := List.mem_map.1 hmem
  apply isLogical_joined
  · intro line hline
    exact (isKept_of_mem_keptLines (mem_of_mem_groups hgroup hline)).1
  · intro line hline
    exact (isKept_of_mem_keptLines (mem_of_mem_groups hgroup hline)).2
  · simpa using hne

theorem mem_of_mem_dropLast_filter {α : Type} {p : α → Bool} {l : List α} {x : α}
    (h : x ∈ (l.filter p).dropLast) : x ∈ l.dropLast := by
  by_cases hl : l = []
  · rw [hl] at h
    cases h
  · have heq := List.dropLast_append_getLast hl
    rw [← heq, List.filter_append] at h
    by_cases hlast : p (l.getLast hl) = true
    · rw [List.filter_singleton, hlast, cond_true, List.dropLast_concat] at h
      exact (List.mem_filter.1 h).1
    · rw [List.filter_singleton, Bool.eq_false_iff.2 hlast, cond_false, List.append_nil] at h
      exact (List.mem_filter.1 (List.dropLast_subset _ h)).1

theorem getLast?_ne_of_mem_dropLast_texts {input t : Text} (h : t ∈ (texts escape input).dropLast) :
    t.getLast? ≠ some escape := by
  rw [texts_eq_joinGroups] at h
  have hmem := mem_of_mem_dropLast_filter h
  rw [← List.map_dropLast] at hmem
  obtain ⟨group, hgroup, rfl⟩ := List.mem_map.1 hmem
  obtain ⟨front, last, rfl, hmarked⟩ := exists_of_mem_dropLast_groups hgroup
  have hlast := mem_of_mem_groups (List.dropLast_subset _ hgroup) List.mem_append_cons_self
  exact getLast?_joined_ne (isKept_of_mem_keptLines hlast).1 hmarked

/-! ## Logical lines of logical texts -/

theorem isMarked_of_isTrimmed {t : Text} (h : IsTrimmed t) :
    isMarked escape t = decide (t.getLast? = some escape) := by
  rw [isMarked, Text.trimEnd_eq_self h.last]

theorem joinGroups_eq_self {ts : List Text} (h : ∀ t ∈ ts, IsLogical t)
    (hmarked : ∀ t ∈ ts, t.getLast? ≠ some escape) : joinGroups escape ts = ts := by
  have hopen : ∀ t ∈ ts, isMarked escape t = false := by
    intro t ht
    rw [isMarked_of_isTrimmed (h t ht).trimmed]
    exact decide_eq_false (hmarked t ht)
  have hjoined : ∀ t ∈ ts, joined escape [t] = t := by
    intro t ht
    have hcontent : content escape t = t := by
      rw [content_of_not_marked (hopen t ht), (h t ht).trimmed.trim_eq]
    simp [joined, pieces, hcontent, (h t ht).ne_nil, Text.join]
  have hmap : (ts.map ([·])).map (joined escape) = ts := by
    rw [List.map_map]
    exact (List.map_congr_left hjoined).trans (List.map_id ts)
  rw [joinGroups, groups_of_not_marked fun t ht => hopen t (List.dropLast_subset _ ht), hmap,
    List.filter_eq_self]
  intro t ht
  simpa using (h t ht).ne_nil

end BuildScript.LogicalLine
