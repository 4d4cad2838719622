import BuildScript.Proofs.Path.Components

/-!
# Directories of paths

The directory of a path is what stands before its name (`parent_append_cons`), so a file that is put into a
directory has this directory again, whether or not it is written with a slash at its end
(`parent_slashed_append`). The directory of a normalized path is normalized (`exists_steps_parent`).
-/

namespace BuildScript.Path

/-- Whether a text can be the name of a file in a directory. -/
def IsFileName (name : Text) : Prop := name ≠ [] ∧ '/' ∉ name

/-- A directory without the slash at its end; the root has no other name. -/
def withoutSlash (dir : Text) : Text := if endsInSlash dir ∧ dir ≠ ['/'] then dir.dropLast else dir

/-- A directory with a slash at its end. -/
def slashed (dir : Text) : Text := if endsInSlash dir then dir else dir ++ ['/']

/-! ## Ends -/

theorem endsInSlash_append_slash (t : Text) : endsInSlash (t ++ ['/']) = true := by
  rw [endsInSlash, List.getLast?_concat]
  rfl

theorem exists_of_endsInSlash {t : Text} (h : endsInSlash t = true) : ∃ front, t = front ++ ['/'] := by
  rw [endsInSlash, beq_iff_eq] at h
  exact ⟨t.dropLast, (List.dropLast_append_getLast? '/' h).symm⟩

theorem isFileName_of_isStep {component : Text} (h : IsStep component) : IsFileName component :=
  ⟨h.1, h.2.2.2⟩

/-! ## Directories -/

/-- The directory of a path is the root or a part of the path from its start. -/
theorem parent_eq_or_prefix (path : Text) :
    parent path = ['/'] ∨ parent path ≠ [] ∧ parent path <+: path := by
  have hdrop : Text.dropTrailing '/' path <+: path := by
    rw [Text.dropTrailing, ← List.reverse_suffix, List.reverse_reverse]
    exact List.dropWhile_suffix _
  have habove : ((Text.dropTrailing '/' path).reverse.dropWhile (· ≠ '/')).tail.reverse <+: path := by
    refine List.IsPrefix.trans ?_ hdrop
    rw [← List.reverse_suffix, List.reverse_reverse]
    exact (List.tail_suffix _).trans (List.dropWhile_suffix _)
  unfold parent
  simp only
  split
  · exact .inl rfl
  · next hne => exact .inr ⟨hne, habove⟩

/-- The directory of a path is what stands before its name. -/
theorem parent_append_cons {name : Text} (h : IsFileName name) (above : Text) :
    parent (above ++ '/' :: name) = if above = [] then ['/'] else above := by
  -- Read from its end, the path is its name, a slash, and what stands above.
  have hreverse : (above ++ '/' :: name).reverse = name.reverse ++ '/' :: above.reverse := by simp
  have hname : ∀ c ∈ name.reverse, c ≠ '/' := fun c hc heq => h.2 (heq ▸ List.mem_reverse.1 hc)
  obtain ⟨last, before, hlast⟩ := List.exists_cons_of_ne_nil (List.reverse_ne_nil_iff.2 h.1)
  have hkept : Text.dropTrailing '/' (above ++ '/' :: name) = above ++ '/' :: name := by
    have hne : last ≠ '/' := hname last (hlast ▸ List.mem_cons_self)
    rw [Text.dropTrailing, hreverse, hlast, List.cons_append, List.dropWhile_cons_of_neg (by simpa using hne),
      ← List.cons_append, ← hlast, ← hreverse, List.reverse_reverse]
  have habove : (above ++ '/' :: name).reverse.dropWhile (· ≠ '/') = '/' :: above.reverse := by
    rw [hreverse, List.dropWhile_append_of_pos fun c hc => by simpa using hname c hc]
    exact List.dropWhile_cons_of_neg (by simp)
  simp only [parent, hkept, habove, List.tail_cons, List.reverse_reverse]

/-- A file in a directory has this directory. -/
theorem parent_slashed_append {dir : Text} (hdir : dir ≠ []) {name : Text} (h : IsFileName name) :
    parent (slashed dir ++ name) = withoutSlash dir := by
  cases hslash : endsInSlash dir with
  | false =>
    rw [slashed, if_neg (by simp [hslash]), List.append_assoc, List.singleton_append, parent_append_cons h,
      if_neg hdir, withoutSlash, if_neg (by simp [hslash])]
  | true =>
    obtain ⟨front, rfl⟩ := exists_of_endsInSlash hslash
    rw [slashed, if_pos hslash, List.append_assoc, List.singleton_append, parent_append_cons h]
    by_cases hfront : front = []
    · rw [hfront]
      rfl
    · rw [if_neg hfront, withoutSlash, if_pos ⟨hslash, by simpa using hfront⟩, List.dropLast_concat]

/-! ## Normalized paths -/

theorem normalize_join {steps : List Text} (h : ∀ c ∈ steps, IsStep c) :
    normalize ('/' :: Text.join ['/'] steps) = '/' :: Text.join ['/'] steps := by
  have hcomponents : components ('/' :: Text.join ['/'] steps) = steps := by
    rw [components_eq, walk_cons, walk_join h, List.append_nil, List.reverse_reverse]
  simp only [normalize, hcomponents]
  by_cases hne : steps = []
  · simp [hne]
  · simp [endsInSlash_join h hne]

theorem eq_join_of_normalize_eq {path : Text} (h : normalize path = path) (hslash : endsInSlash path = false) :
    path = '/' :: Text.join ['/'] (components path) := by
  conv_lhs => rw [← h]
  simp [normalize, hslash]

/-- A directory that is written with a slash at its end is normalized if it is without. -/
theorem normalize_slashed {path : Text} (h : normalize path = path) : normalize (slashed path) = slashed path := by
  unfold slashed
  split
  · exact h
  · next hslash =>
    have hcomponents : components path ≠ [] := by
      intro hnil
      have hroot : path = ['/'] := by
        rw [← h]
        simp [normalize, hnil, Text.join]
      exact hslash (hroot ▸ rfl)
    have hpath := eq_join_of_normalize_eq h (by simpa using hslash)
    have hsame : components (path ++ ['/']) = components path := by
      rw [components_eq, walk_append_cons, walk_nil, components_eq]
    simp only [normalize, hsame, endsInSlash_append_slash, Bool.true_and]
    rw [← hpath]
    simp [hcomponents]

/-- The directory of a normalized path that has a name at its end is written as its components are. -/
theorem exists_steps_parent {path : Text} (h : normalize path = path) (hslash : endsInSlash path = false) :
    ∃ steps, (∀ c ∈ steps, IsStep c) ∧ parent path = '/' :: Text.join ['/'] steps := by
  have hsteps : ∀ c ∈ components path, IsStep c := fun _ => isStep_of_mem_components
  have hpath := eq_join_of_normalize_eq h hslash
  rcases List.eq_nil_or_concat' (components path) with hnil | ⟨front, name, hlast⟩
  · rw [hpath, hnil] at hslash
    cases hslash
  · rw [hlast] at hsteps hpath
    have hname : IsFileName name := isFileName_of_isStep (hsteps name (by simp))
    refine ⟨front, fun c hc => hsteps c (List.mem_append_left _ hc), ?_⟩
    rw [hpath]
    by_cases hfront : front = []
    · rw [hfront]
      exact parent_append_cons hname []
    · rw [Text.join_append_singleton hfront, List.append_assoc, List.singleton_append, ← List.cons_append,
        parent_append_cons hname, if_neg (List.cons_ne_nil _ _)]

theorem normalize_parent {path : Text} (h : normalize path = path) (hslash : endsInSlash path = false) :
    normalize (parent path) = parent path := by
  obtain ⟨steps, hsteps, hparent⟩ := exists_steps_parent h hslash
  rw [hparent, normalize_join hsteps]

theorem withoutSlash_parent {path : Text} (h : normalize path = path) (hslash : endsInSlash path = false) :
    withoutSlash (parent path) = parent path := by
  obtain ⟨steps, hsteps, hparent⟩ := exists_steps_parent h hslash
  rw [hparent, withoutSlash, if_neg]
  rintro ⟨hend, hroot⟩
  by_cases hne : steps = []
  · exact hroot (by rw [hne]; rfl)
  · rw [endsInSlash_join hsteps hne] at hend
    cases hend

/-! ## Names of files -/

theorem isFileName_of_fileName? {path name : Text} (h : fileName? path = some name) : IsFileName name := by
  unfold fileName? at h
  split at h
  · next last hlast =>
    split at h
    · cases h
    · cases h
      obtain ⟨hmem, hkept⟩ := List.mem_filter.1 (List.mem_of_getLast? hlast)
      exact ⟨(of_decide_eq_true hkept).1, Text.notMem_of_mem_splitAt hmem⟩
  · cases h

end BuildScript.Path
