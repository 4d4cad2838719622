import BuildScript.Proofs.Compile.Invariant
import BuildScript.Proofs.Dockerfile.LogicalText
import BuildScript.Proofs.Word.Characters

/-!
# What instructions leave behind is one line

A build file without NUL gives words that can stand on one line (`Word.IsClean`): an instruction is one
logical line, which has no line feed, and reading, expanding and resolving add none. So all that a state
keeps is clean, after any instructions (`State.IsClean.change`), also after those whose own lines are
broken: what a JSON array brings in is never kept.
-/

namespace BuildScript

open Text (Unbroken)

/-! ## Texts of instructions -/

namespace LogicalLine

/-- Logical lines have the characters of the input, and spaces between their pieces. -/
theorem mem_of_mem_texts {escape : Char} {input t : Text} (h : t ∈ texts escape input) {c : Char}
    (hc : c ∈ t) : c ∈ input ∨ c = ' ' := by
  rw [texts_eq_joinGroups] at h
  obtain ⟨group, hgroup, rfl⟩ := List.mem_map.1 (List.mem_filter.1 h).1
  rcases Text.mem_join hc with hc | ⟨piece, hpiece, hc⟩
  · exact .inr (List.mem_singleton.1 hc)
  · obtain ⟨line, hline, rfl, -⟩ := exists_of_mem_pieces hpiece
    have hkept := mem_of_mem_groups hgroup hline
    rw [map_fst_keptLines] at hkept
    obtain ⟨row, hrow, hrows⟩ := Text.exists_row_of_mem_terminated (List.mem_filter.1 hkept).1
    have hsubset : line ⊆ row := by
      rcases hrows with rfl | rfl
      · exact List.Subset.refl _
      · exact Text.subset_of_dropReturn row
    exact .inl (Text.subset_of_mem_splitAt hrow (hsubset (content_subset escape line hc)))

theorem unbroken_of_mem_texts {escape : Char} {input : Text} (hinput : '\x00' ∉ input) {t : Text}
    (h : t ∈ texts escape input) : Unbroken t := by
  intro c hc
  constructor
  · rintro rfl
    exact (isLogical_of_mem_texts h).noFeed hc
  · rintro rfl
    rcases mem_of_mem_texts h hc with hc | hc
    · exact hinput hc
    · cases hc

end LogicalLine

/-- An instruction is written in one logical line. -/
theorem Instruction.exists_text {input : Text} {i : Instruction} (hi : i ∈ instructions input) :
    ∃ t ∈ LogicalLine.texts (escapeOf input) input, i.source ⊆ t ∧ i.arguments ⊆ t := by
  obtain ⟨l, hl, rfl⟩ := List.mem_map.1 hi
  have hsource : Text.trim l.text ⊆ l.text := Text.trim_subset _
  exact ⟨l.text, List.mem_map_of_mem hl, hsource,
    List.Subset.trans (List.Subset.trans (Text.trim_subset _) (Text.beforeBlank_subset _).2) hsource⟩

theorem Instruction.unbroken {input : Text} (hinput : '\x00' ∉ input) {i : Instruction}
    (hi : i ∈ instructions input) : Unbroken i.source ∧ Unbroken i.arguments := by
  obtain ⟨t, ht, hsource, harguments⟩ := Instruction.exists_text hi
  have htext := LogicalLine.unbroken_of_mem_texts hinput ht
  exact ⟨htext.mono hsource, htext.mono harguments⟩

theorem feed_notMem_arguments {input : Text} {i : Instruction} (hi : i ∈ instructions input) :
    '\n' ∉ i.arguments := by
  obtain ⟨t, ht, -, harguments⟩ := Instruction.exists_text hi
  exact fun hmem => (LogicalLine.isLogical_of_mem_texts ht).noFeed (harguments hmem)

theorem isTrimmed_arguments {input : Text} {i : Instruction} (hi : i ∈ instructions input) :
    Text.IsTrimmed i.arguments := by
  obtain ⟨l, -, rfl⟩ := List.mem_map.1 hi
  exact Text.isTrimmed_trim _

/-! ## Words -/

/-- Whether a word refers to variables by names that are ones, and its characters can stand on one line. -/
structure Word.IsClean (w : Word) : Prop where
  named : w.named = true
  chars : Unbroken w.chars

namespace Word

theorem isClean_literal {t : Text} (h : Unbroken t) : (literal t).IsClean :=
  ⟨named_literal t, (chars_literal t).symm ▸ h⟩

theorem isClean_lex (escape : Char) {t : Text} (h : Unbroken t) : (lex escape t).IsClean :=
  ⟨named_lex escape t, h.mono (chars_lex escape t)⟩

theorem isClean_lexAll (escape : Char) {t : Text} (h : Unbroken t) :
    ∀ w ∈ lexAll escape t, w.IsClean :=
  fun w hw => ⟨named_lexAll escape t w hw, h.mono (chars_lexAll escape t w hw)⟩

namespace IsClean

variable {v w : Word}

theorem append (hv : v.IsClean) (hw : w.IsClean) : (v ++ w).IsClean := by
  refine ⟨?_, ?_⟩
  · rw [named_append, hv.named, hw.named]
    rfl
  · rw [chars_append, Text.unbroken_append]
    exact ⟨hv.chars, hw.chars⟩

theorem join {sep : Text} (hsep : Unbroken sep) {ws : List Word} (h : ∀ w ∈ ws, w.IsClean) :
    (join sep ws).IsClean := by
  induction ws with
  | nil => exact isClean_literal Text.unbroken_nil
  | cons w ws ih =>
    obtain ⟨hw, hws⟩ := List.forall_mem_cons.1 h
    cases ws with
    | nil => exact hw
    | cons v ws => exact (hw.append (isClean_literal hsep)).append (ih hws)

theorem withSlash (h : w.IsClean) : w.withSlash.IsClean := by
  unfold Word.withSlash
  split
  · exact h
  · exact h.append (isClean_literal (Text.unbroken_of_not_isBroken rfl))

theorem of_cutAt {sep : Char} {before : Text} {after : Word} (hw : w.IsClean)
    (h : w.cutAt sep = some (before, after)) : Unbroken before ∧ after.IsClean := by
  obtain ⟨hbefore, hafter⟩ := chars_of_cutAt h
  exact ⟨hw.chars.mono hbefore, named_of_cutAt h hw.named, hw.chars.mono hafter⟩

theorem text? {t : Text} (hw : w.IsClean) (h : w.text? = some t) : Unbroken t :=
  chars_of_text? h ▸ hw.chars

theorem toShell (h : w.IsClean) : Unbroken w.toShell := unbroken_toShell h.named h.chars

theorem toShellGlob (h : w.IsClean) : Unbroken w.toShellGlob := unbroken_toShellGlob h.named h.chars

theorem toDoubleQuoted (h : w.IsClean) : Unbroken w.toDoubleQuoted :=
  unbroken_toDoubleQuoted h.named h.chars

end IsClean

end Word

/-! ## States -/

/-- Whether the words that a state keeps are clean. -/
structure State.IsClean (s : State) : Prop where
  workdir : ∀ w, s.workdir = some w → w.IsClean
  env : ∀ b ∈ s.env, b.2.IsClean
  user : ∀ w, s.user = some w → w.IsClean

namespace State

theorem isClean_envBindings? {escape : Char} {raw : Text} (hraw : Unbroken raw) {bindings : List Binding}
    (h : envBindings? escape raw = some bindings) : ∀ b ∈ bindings, isName b.1 = true ∧ b.2.IsClean := by
  intro b hb
  refine ⟨(named_envBindings? h b hb).1, ?_⟩
  rcases envBindings?_eq_some h with ⟨-, hwords⟩ | ⟨-, -, -, rfl⟩
  · obtain ⟨w, hw, hcut, -⟩ := exists_word_of_mem_bindings? hwords hb
    exact ((Word.isClean_lexAll escape hraw w hw).of_cutAt hcut).2
  · rw [List.mem_singleton.1 hb]
    apply Word.IsClean.join (Text.unbroken_of_not_isBroken rfl)
    apply Word.isClean_lexAll escape
    exact hraw.mono (List.Subset.trans (Text.trim_subset _) (Text.beforeBlank_subset raw).2)

theorem isClean_initial (escape : Char) : (initial escape).IsClean :=
  ⟨fun _ hw => (nomatch hw), fun _ hb => (nomatch hb), fun _ hw => (nomatch hw)⟩

namespace IsClean

variable {s : State} {o : Options} {files : FileView} {raw : Text} {outcome : Outcome}

theorem workingDir (h : s.IsClean) : s.workingDir.IsClean := by
  unfold State.workingDir
  cases hdir : s.workdir with
  | none => exact Word.isClean_literal (Text.unbroken_of_not_isBroken rfl)
  | some w => exact h.workdir w hdir

theorem expand (h : s.IsClean) {w : Word} (hw : w.IsClean) : (s.expand w).IsClean := by
  refine ⟨Environment.Named.expand (fun b hb => (h.env b hb).named) hw.named, ?_⟩
  intro c hc
  rcases Environment.mem_chars_expand hc with hc | ⟨b, hb, hc⟩
  · exact hw.chars c hc
  · exact (h.env b hb).chars c hc

theorem resolve (h : s.IsClean) {path : Word} (hpath : path.IsClean) : (s.resolve path).IsClean := by
  have hjoined : (s.joined path).IsClean := of_joined (fun _ => hpath) (h.workingDir.withSlash.append hpath)
  rcases s.resolve_cases path with ⟨t, htext, heq⟩ | ⟨-, heq⟩
  · rw [heq]
    exact Word.isClean_literal (Path.unbroken_normalize (hjoined.text? htext))
  · rw [heq]
    exact hjoined

/-- The user of a word that is clean. -/
theorem userOf {spec : Word} (h : spec.IsClean) : (userOf spec).IsClean := by
  unfold State.userOf
  split
  · next hcut => exact Word.isClean_literal (h.of_cutAt hcut).1
  · exact h

end IsClean

/-! ## Every state -/

/-- Whether two states have the same words. -/
structure SameWords (s t : State) : Prop where
  workdir : t.workdir = s.workdir
  env : t.env = s.env
  user : t.user = s.user

namespace IsClean

variable {s : State} {o : Options} {files : FileView} {i : Instruction}

theorem of_sameWords (h : s.IsClean) {t : State} (ht : s.SameWords t) : t.IsClean where
  workdir w hw := h.workdir w (ht.workdir ▸ hw)
  env := ht.env ▸ h.env
  user w hw := h.user w (ht.user ▸ hw)

/-- Instructions keep the words of the state clean. -/
theorem change (h : s.IsClean) (hi : Unbroken i.arguments) {t : State} (hc : s.Change i t) :
    t.IsClean := by
  cases hc with
  | workdir hkeyword =>
    refine ⟨?_, h.env, h.user⟩
    intro w hw
    rw [← Option.some.inj hw]
    have hpath : (Word.join [' '] (Word.lexAll s.escape i.arguments)).IsClean :=
      Word.IsClean.join (Text.unbroken_of_not_isBroken rfl) (Word.isClean_lexAll s.escape hi)
    exact h.resolve (h.expand hpath)
  | env hkeyword hbindings =>
    refine ⟨h.workdir, ?_, h.user⟩
    intro b hb
    rcases Environment.mem_record hb with hb | ⟨b', hb', rfl⟩
    · exact h.env b hb
    · exact h.expand (isClean_envBindings? hi hbindings b' hb').2
  | invoker hkeyword => exact ⟨h.workdir, h.env, fun _ hw => (nomatch hw)⟩
  | user hkeyword hspec =>
    have hclean := Word.isClean_lexAll s.escape hi _ hspec
    exact ⟨h.workdir, h.env, fun w hw => Option.some.inj hw ▸ userOf (h.expand hclean)⟩
  | usesContext | keep => exact h.of_sameWords ⟨rfl, rfl, rfl⟩

theorem ofInstruction (h : s.IsClean) (hi : Unbroken i.arguments) :
    (Step.ofInstruction o files s i).state.IsClean :=
  ofInstruction_induction h fun _ => h.change hi

end IsClean

end State

/-- Each instruction of a build file without NUL is compiled in a state whose words are clean. -/
theorem exists_isClean_of_mem_trace {o : Options} {files : FileView} {input : Text}
    (hinput : '\x00' ∉ input) {step : Step} (hstep : step ∈ trace o files input) :
    ∃ s : State, s.IsClean ∧ step = Step.ofInstruction o files s step.instruction :=
  exists_state_of_mem_traceFrom (fun _ _ hi hs => hs.ofInstruction (Instruction.unbroken hinput hi).2)
    (State.isClean_initial _) hstep

end BuildScript
