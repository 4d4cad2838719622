import BuildScript.Proofs.Compile.Reachable

/-!
# What a path is told from

Whether a path starts at the root is decided when it is compiled, by the first character of its word. A word
that begins with a reference is put below the working directory, or below the build context if it is a source.
When the script runs, the reference may stand for a path from the root; the place is below that directory all
the same, so it is another one than the path by itself, unless the path climbs out of the directory again.
All other paths are told from where they are told from when the script runs (`normalize_value_resolve`).
-/

namespace BuildScript

/-! ## Paths below a directory -/

namespace Path

instance : DecidablePred IsRooted := fun path => inferInstanceAs (Decidable (path.head? = some '/'))

/-- A path from the root as it is, and any other one below a directory. -/
def seenFrom (dir path : Text) : Text := if IsRooted path then path else dir ++ '/' :: path

theorem seenFrom_append {path : Text} (h : path ≠ []) (dir rest : Text) :
    seenFrom dir (path ++ rest) = seenFrom dir path ++ rest := by
  obtain ⟨c, others, rfl⟩ := List.exists_cons_of_ne_nil h
  have hrooted : IsRooted (c :: others ++ rest) ↔ IsRooted (c :: others) := .rfl
  simp only [seenFrom, hrooted]
  split
  · rfl
  · simp

theorem components_slash (dir : Text) : components (dir ++ ['/']) = components dir := by
  rw [components_eq, walk_append_cons, walk_nil, components_eq]

/-- A path is normalized as one that is seen from the root. -/
theorem normalize_seenFrom_root (path : Text) : normalize (seenFrom [] path) = normalize path := by
  unfold seenFrom
  split
  · rfl
  · have hcomponents : components ('/' :: path) = components path := by
      rw [components_eq, walk_cons, components_eq]
    refine normalize_congr hcomponents fun h => endsInSlash_behind ?_ []
    rintro rfl
    exact h rfl

theorem walk_slashes_append {slashes : Text} (h : ∀ c ∈ slashes, c = '/') (seen : List Text) (path : Text) :
    walk seen (slashes ++ '/' :: path) = walk seen path := by
  induction slashes with
  | nil => exact walk_cons seen path
  | cons c rest ih =>
    obtain ⟨rfl, hrest⟩ := List.forall_mem_cons.1 h
    rw [List.cons_append, walk_cons, ih hrest]

/-- More slashes at the end of a directory name the same places below it. -/
theorem normalize_append_slashes {slashes : Text} (h : ∀ c ∈ slashes, c = '/') (dir path : Text) :
    normalize (dir ++ slashes ++ '/' :: path) = normalize (dir ++ '/' :: path) := by
  refine normalize_congr ?_ fun _ => ?_
  · cases slashes with
    | nil => rw [List.append_nil]
    | cons c rest =>
      obtain ⟨rfl, hrest⟩ := List.forall_mem_cons.1 h
      rw [components_eq, components_eq, List.append_assoc, List.cons_append, walk_append_cons,
        walk_slashes_append hrest, walk_append_cons]
  · rw [endsInSlash_append_cons, endsInSlash_append_cons]

theorem normalize_seenFrom_append_slashes {slashes : Text} (h : ∀ c ∈ slashes, c = '/')
    (dir base path : Text) :
    normalize (seenFrom dir (base ++ slashes ++ '/' :: path)) =
      normalize (seenFrom dir (base ++ '/' :: path)) := by
  have hrooted : IsRooted (base ++ slashes ++ '/' :: path) ↔ IsRooted (base ++ '/' :: path) := by
    cases base with
    | cons c rest => exact .rfl
    | nil =>
      refine iff_of_true ?_ rfl
      cases slashes with
      | nil => rfl
      | cons c rest => exact congrArg some (h c List.mem_cons_self)
  simp only [seenFrom, hrooted]
  split
  · exact normalize_append_slashes h base path
  · have hbehind := normalize_append_slashes h (dir ++ '/' :: base) path
    simpa using hbehind

/-- A path from the root is another place below a directory, unless it climbs out of the directory. -/
theorem normalize_seenFrom_eq_iff {path : Text} (h : IsRooted path) (dir base : Text) :
    normalize (seenFrom dir (base ++ '/' :: path)) = normalize path ↔
      (components (seenFrom dir (base ++ ['/']))).length ≤ climb path := by
  have hne : path ≠ [] := by
    rintro rfl
    cases h
  have hsplit : base ++ '/' :: path = base ++ ['/'] ++ path := by simp
  have hbase : base ++ ['/'] ≠ [] := by simp
  obtain ⟨front, hfront⟩ : ∃ front, seenFrom dir (base ++ ['/']) = front ++ ['/'] := by
    unfold seenFrom
    split
    · exact ⟨base, rfl⟩
    · exact ⟨dir ++ '/' :: base, by simp⟩
  rw [hsplit, seenFrom_append hbase, hfront, components_slash, List.append_assoc, List.singleton_append]
  exact normalize_behind_eq_iff hne front

end Path

/-! ## Values of words -/

namespace Word

variable {w : Word} {ρ : Vars}

theorem isRooted_value (h : w.startsWith ['/'] = true) (ρ : Vars) : Path.IsRooted (w.value ρ) := by
  obtain ⟨rest, rfl⟩ := startsWith_slash_iff.1 h
  rfl

/-- A word that stands for a path from the root begins with a slash or with a reference. -/
theorem startsWith_or_leading_eq_nil (h : Path.IsRooted (w.value ρ)) :
    w.startsWith ['/'] = true ∨ w.leading = [] := by
  cases w with
  | char c rest => exact .inl (startsWith_slash_iff.2 ⟨rest, by rw [Option.some.inj h]⟩)
  | _ => exact .inr rfl

theorem exists_value_eq_trailingFrom (seen : Text) (w : Word) (ρ : Vars) :
    ∃ front, seen.reverse ++ w.value ρ = front ++ trailingFrom seen w := by
  induction w generalizing seen with
  | nil => exact ⟨[], by simp [value, trailingFrom]⟩
  | char c rest ih =>
    obtain ⟨front, hfront⟩ := ih (c :: seen)
    refine ⟨front, ?_⟩
    rw [trailingFrom, ← hfront, value]
    simp
  | var name rest ih =>
    obtain ⟨front, hfront⟩ := ih []
    refine ⟨seen.reverse ++ ρ.text name ++ front, ?_⟩
    rw [trailingFrom, List.append_assoc, ← hfront, value]
    simp
  | cond name choice arg rest _ ih =>
    obtain ⟨front, hfront⟩ := ih []
    refine ⟨seen.reverse ++ choice.pick (ρ.text name) (arg.value ρ) ++ front, ?_⟩
    rw [trailingFrom, List.append_assoc, ← hfront, value]
    simp

theorem exists_value_eq_append (h : w.endsWith ['/'] = true) (ρ : Vars) :
    ∃ front, w.value ρ = front ++ ['/'] := by
  simp only [endsWith, Bool.and_eq_true, List.isSuffixOf_iff_suffix] at h
  obtain ⟨before, hbefore⟩ := h.2
  obtain ⟨front, hfront⟩ := exists_value_eq_trailingFrom [] w ρ
  refine ⟨front ++ before, ?_⟩
  rw [List.append_assoc, hbefore]
  exact hfront

/-- A directory with a slash at its end is the directory without its slashes and a slash. -/
theorem exists_value_withSlash (w : Word) (ρ : Vars) :
    ∃ front slashes, (∀ c ∈ slashes, c = '/') ∧ w.value ρ = front ++ slashes ∧
      w.withSlash.value ρ = front ++ ['/'] := by
  unfold withSlash
  split
  · next h =>
    obtain ⟨front, hfront⟩ := exists_value_eq_append h ρ
    exact ⟨front, ['/'], List.forall_mem_singleton.2 rfl, hfront, hfront⟩
  · exact ⟨w.value ρ, [], by simp, (List.append_nil _).symm, by rw [value_append, value_literal]⟩

/-- What a word stands for below a directory, unless it begins with a slash. -/
def valueBelow (ρ : Vars) (base : Text) (w : Word) : Text :=
  if w.startsWith ['/'] then w.value ρ else base ++ '/' :: w.value ρ

/-- A word that is put below a directory is what its value is there, unless it begins with a reference that
makes it a path from the root and does not climb out of the directory. -/
theorem normalize_valueBelow_iff (w : Word) (ρ : Vars) (dir base : Text) :
    Path.normalize (Path.seenFrom dir (w.valueBelow ρ base)) =
        Path.normalize (Path.seenFrom dir (Path.seenFrom base (w.value ρ))) ↔
      (w.leading = [] → Path.IsRooted (w.value ρ) →
        (Path.components (Path.seenFrom dir (base ++ ['/']))).length ≤ Path.climb (w.value ρ)) := by
  by_cases hrooted : Path.IsRooted (w.value ρ)
  · have hseen : ∀ dir, Path.seenFrom dir (w.value ρ) = w.value ρ := fun dir => if_pos hrooted
    rw [hseen base, hseen dir]
    rcases Bool.eq_false_or_eq_true (w.startsWith ['/']) with hstarts | hstarts
    · rw [valueBelow, if_pos hstarts, hseen dir]
      refine iff_of_true rfl fun hleading => ?_
      simp [startsWith, hleading] at hstarts
    · have hleading : w.leading = [] := (startsWith_or_leading_eq_nil hrooted).resolve_left (by simp [hstarts])
      rw [valueBelow, hstarts, if_neg Bool.false_ne_true, Path.normalize_seenFrom_eq_iff hrooted]
      simp [hleading, hrooted]
  · have hstarts : ¬w.startsWith ['/'] = true := fun h => hrooted (isRooted_value h ρ)
    have hbelow : w.valueBelow ρ base = Path.seenFrom base (w.value ρ) := by
      rw [valueBelow, Path.seenFrom, if_neg hstarts, if_neg hrooted]
    rw [hbelow]
    exact iff_of_true rfl fun _ h => absurd h hrooted

end Word

/-! ## Where a script looks -/

theorem State.normalize_value_resolve_eq (s : State) (w : Word) (ρ : Vars) :
    Path.normalize ((s.resolve w).value ρ) =
      Path.normalize (w.valueBelow ρ (s.workingDir.value ρ)) := by
  have hjoined : Path.normalize ((s.joined w).value ρ) =
      Path.normalize (w.valueBelow ρ (s.workingDir.value ρ)) := by
    unfold State.joined Word.valueBelow
    split
    · rfl
    · obtain ⟨front, slashes, hslashes, hvalue, hslash⟩ := s.workingDir.exists_value_withSlash ρ
      rw [Word.value_append, hslash, hvalue, Path.normalize_append_slashes hslashes, List.append_assoc,
        List.singleton_append]
  rcases s.resolve_cases w with ⟨t, htext, heq⟩ | ⟨-, heq⟩
  · rw [heq, Word.value_literal, Path.normalize_normalize, ← hjoined, Word.eq_literal_of_text? htext,
      Word.value_literal]
  · rw [heq, hjoined]

/-- The directory of the build context: the one that was chosen, or the one that its variable tells. -/
def Options.contextText (o : Options) (ρ : Vars) : Text := o.contextDir.getD (ρ.text contextVariable)

theorem Options.normalize_value_locate_eq (o : Options) (w : Word) (ρ : Vars) (dir : Text) :
    Path.normalize (Path.seenFrom dir ((o.locate w).value ρ)) =
      Path.normalize (Path.seenFrom dir (w.valueBelow ρ (o.contextText ρ))) := by
  unfold Word.valueBelow
  split
  · next h => rw [locate, if_pos h]
  · next h =>
    cases hcontext : o.contextDir with
    | some context =>
      obtain ⟨slashes, hslashes, heq⟩ := exists_eq_dropTrailing_append context
      rw [o.locate_of_some w hcontext (by simpa using h), Word.value_append, Word.value_literal, contextText,
        hcontext, Option.getD_some]
      conv_rhs => rw [heq, Path.normalize_seenFrom_append_slashes hslashes]
      rfl
    | none =>
      rw [locate, if_neg h, hcontext, contextText, hcontext]
      simp [Word.value_append, Word.value]

/-- Where a path is told from when it is compiled, and when the script runs. A path that is resolved is the path
itself if its word begins with a slash, and the path below the working directory otherwise; so is a source and
the build context, for a script that is in any directory `dir`. This is the path that the values of the
variables tell, from the root or below that directory, if and only if the word does not begin with a reference
that makes it a path from the root, or the path climbs out of the directory that it is put in. -/
theorem State.normalize_value_resolve (s : State) (o : Options) (w : Word) (ρ : Vars) :
    Path.normalize ((s.resolve w).value ρ) =
      Path.normalize (w.valueBelow ρ (s.workingDir.value ρ)) ∧
    (Path.normalize ((s.resolve w).value ρ) =
        Path.normalize (Path.seenFrom (s.workingDir.value ρ) (w.value ρ)) ↔
      (w.leading = [] → Path.IsRooted (w.value ρ) →
        (Path.components (s.workingDir.value ρ)).length ≤ Path.climb (w.value ρ))) ∧
    ∀ dir,
      Path.normalize (Path.seenFrom dir ((o.locate w).value ρ)) =
        Path.normalize (Path.seenFrom dir (w.valueBelow ρ (o.contextText ρ))) ∧
      (Path.normalize (Path.seenFrom dir ((o.locate w).value ρ)) =
          Path.normalize (Path.seenFrom dir (Path.seenFrom (o.contextText ρ) (w.value ρ))) ↔
        (w.leading = [] → Path.IsRooted (w.value ρ) →
          (Path.components (Path.seenFrom dir (o.contextText ρ ++ ['/']))).length ≤
            Path.climb (w.value ρ))) := by
  refine ⟨s.normalize_value_resolve_eq w ρ, ?_, fun dir => ⟨o.normalize_value_locate_eq w ρ dir, ?_⟩⟩
  · have hroot := w.normalize_valueBelow_iff ρ [] (s.workingDir.value ρ)
    have hbase : Path.components (Path.seenFrom [] (s.workingDir.value ρ ++ ['/'])) =
        Path.components (s.workingDir.value ρ) := by
      rw [← Path.components_normalize, Path.normalize_seenFrom_root, Path.components_normalize,
        Path.components_slash]
    rw [Path.normalize_seenFrom_root, Path.normalize_seenFrom_root, hbase] at hroot
    rw [s.normalize_value_resolve_eq]
    exact hroot
  · rw [o.normalize_value_locate_eq]
    exact w.normalize_valueBelow_iff ρ dir (o.contextText ρ)

/-- A reference that stands for a path from the root. `WORKDIR` enters the directory of that name below the
working directory, and `COPY` looks for its source below the build context. -/
theorem normalize_value_resolve_reference :
    let input := "WORKDIR /srv\nCOPY $D /x\nWORKDIR $D".toList
    let s := stateAfter (.initial '\\') (trace {} (fun _ => none) "WORKDIR /srv".toList)
    let w := Word.var "D".toList .nil
    let ρ : Vars := fun name => if name = "D".toList then some "/abs".toList else some "/ctx".toList
    s.Reachable '\\' ∧
    (compile {} (fun _ => none) input).statements =
      ["mkdir -p /srv && cd /srv",
        "mkdir -p / && cp -R \"$\x7bDOCKER2SH_CONTEXT\x7d\"/\"$\x7bD\x7d\" /x",
        "mkdir -p /srv/\"$\x7bD\x7d\" && cd /srv/\"$\x7bD\x7d\""].map String.toList ∧
    Path.normalize ((s.resolve w).value ρ) = "/srv/abs".toList ∧
    Path.normalize (Path.seenFrom (s.workingDir.value ρ) (w.value ρ)) = "/abs".toList ∧
    Path.normalize ((Options.locate {} w).value ρ) = "/ctx/abs".toList ∧
    Path.normalize (Path.seenFrom (Options.contextText {} ρ) (w.value ρ)) = "/abs".toList := by
  refine ⟨?_, by decide +kernel, by decide +kernel, by decide +kernel, by decide +kernel, by decide +kernel⟩
  have hescape : escapeOf "WORKDIR /srv".toList = '\\' := by decide +kernel
  have hreach : State.Reachable (escapeOf "WORKDIR /srv".toList)
      (stateAfter (.initial (escapeOf "WORKDIR /srv".toList))
        (trace {} (fun _ => none) "WORKDIR /srv".toList)) :=
    reachable_stateAfter (List.append_nil _).symm
  rwa [hescape] at hreach

end BuildScript
