import BuildScript.CommandLine.World
import BuildScript.Proofs.Compile.Append
import BuildScript.Proofs.Compile.Skeleton

/-!
# Where sources are looked for

`WORKDIR` changes the directory of the script, so a source of a later `COPY` or `ADD` has to be told by a
path that does not start there: from the root, or from the variable that was given the place where the
script is started (`Word.IsAnchored`). Sources are told so unless they are put below a directory that was
itself chosen by a relative path (`locate_isAnchored_iff`, `located_of_mem_trace`).
-/

namespace BuildScript

/-- Whether a path starts at the root. -/
def Path.IsRooted (path : Text) : Prop := path.head? = some '/'

/-- Whether a word is a path from the root, or one below the value of the variable of the build context. -/
inductive Word.IsAnchored : Word → Prop
  | root (rest : Word) : IsAnchored (.char '/' rest)
  | context (rest : Word) : IsAnchored (.var contextVariable (.char '/' rest))

/-- Whether the build context of options is not told by a relative path. The empty path stands for the root
here. -/
def Options.IsAnchored (o : Options) : Prop := ∀ dir ∈ o.contextDir, dir = [] ∨ Path.IsRooted dir

theorem Word.startsWith_slash_iff {w : Word} :
    w.startsWith ['/'] = true ↔ ∃ rest, w = .char '/' rest := by
  constructor
  · intro h
    cases w with
    | char c rest =>
      simp only [startsWith, leading, Bool.and_eq_true, List.isPrefixOf, beq_iff_eq] at h
      exact ⟨rest, by rw [h.2.1]⟩
    | _ => simp [startsWith, leading] at h
  · rintro ⟨rest, rfl⟩
    rfl

theorem exists_eq_dropTrailing_append (dir : Text) :
    ∃ slashes, (∀ c ∈ slashes, c = '/') ∧ dir = Text.dropTrailing '/' dir ++ slashes := by
  refine ⟨(dir.reverse.takeWhile (· = '/')).reverse, ?_, ?_⟩
  · intro c hc
    simpa using List.mem_takeWhile_imp (List.mem_reverse.1 hc)
  · rw [Text.dropTrailing, ← List.reverse_append, List.takeWhile_append_dropWhile, List.reverse_reverse]

/-- Without the slashes at its end, a directory is empty or begins as before. -/
theorem dropTrailing_cases (dir : Text) :
    (Text.dropTrailing '/' dir = [] ∧ (dir = [] ∨ Path.IsRooted dir)) ∨
      ∃ c rest, Text.dropTrailing '/' dir = c :: rest ∧ dir.head? = some c := by
  obtain ⟨slashes, hslashes, hdir⟩ := exists_eq_dropTrailing_append dir
  cases hdrop : Text.dropTrailing '/' dir with
  | nil =>
    refine .inl ⟨rfl, ?_⟩
    rw [hdrop, List.nil_append] at hdir
    cases slashes with
    | nil => exact .inl hdir
    | cons c rest =>
      right
      rw [Path.IsRooted, hdir, hslashes c List.mem_cons_self]
      rfl
  | cons c rest =>
    refine .inr ⟨c, rest, rfl, ?_⟩
    rw [hdir, hdrop]
    rfl

namespace Options

variable (o : Options) (source : Word)

theorem isAnchored_of_none (h : o.contextDir = none) : o.IsAnchored := by
  simp [IsAnchored, h]

theorem isAnchored_iff_of_some {dir : Text} (h : o.contextDir = some dir) :
    o.IsAnchored ↔ dir = [] ∨ Path.IsRooted dir := by
  simp [IsAnchored, h]

theorem locate_of_some {dir : Text} (h : o.contextDir = some dir)
    (hstarts : source.startsWith ['/'] = false) :
    o.locate source = .literal (Text.dropTrailing '/' dir) ++ .char '/' source := by
  rw [locate, hstarts, h, if_neg Bool.false_ne_true, Word.append_assoc]
  rfl

/-- The place of a source is a path from the root, one below the variable of the build context, or one that
begins as a directory does that was chosen by a relative path. -/
theorem locate_cases :
    (∃ rest, o.locate source = .char '/' rest ∧ (source.startsWith ['/'] = true ∨ o.IsAnchored)) ∨
    (o.contextDir = none ∧ o.usesContext source = true ∧
      ∃ rest, o.locate source = .var contextVariable (.char '/' rest)) ∨
    ∃ c rest, o.locate source = .char c rest ∧ c ≠ '/' ∧ source.startsWith ['/'] = false ∧
      ¬o.IsAnchored := by
  cases hstarts : source.startsWith ['/'] with
  | true =>
    obtain ⟨rest, rfl⟩ := Word.startsWith_slash_iff.1 hstarts
    exact .inl ⟨rest, by rw [locate, if_pos hstarts], .inl rfl⟩
  | false =>
    cases hcontext : o.contextDir with
    | none =>
      refine .inr (.inl ⟨rfl, by simp [usesContext, hcontext, hstarts], source, ?_⟩)
      rw [locate, hstarts, hcontext, if_neg Bool.false_ne_true]
      rfl
    | some dir =>
      have hlocate := o.locate_of_some source hcontext hstarts
      have hanchored := o.isAnchored_iff_of_some hcontext
      rcases dropTrailing_cases dir with ⟨hdrop, hdir⟩ | ⟨c, rest, hdrop, hhead⟩
      · rw [hdrop] at hlocate
        exact .inl ⟨source, hlocate, .inr (hanchored.2 hdir)⟩
      · rw [hdrop] at hlocate
        by_cases hc : c = '/'
        · rw [hc] at hlocate hhead
          exact .inl ⟨_, hlocate, .inr (hanchored.2 (.inr hhead))⟩
        · refine .inr (.inr ⟨c, _, hlocate, hc, rfl, fun h => ?_⟩)
          rcases hanchored.1 h with rfl | hrooted
          · cases hhead
          · exact hc (Option.some.inj (hhead.symm.trans hrooted))

/-- A source is anchored if it begins with a slash or the build context is not a relative path, and only
then. -/
theorem isAnchored_locate_iff :
    (o.locate source).IsAnchored ↔ source.startsWith ['/'] = true ∨ o.IsAnchored := by
  rcases o.locate_cases source with ⟨rest, hlocate, hcause⟩ | ⟨hnone, -, rest, hlocate⟩ |
      ⟨c, rest, hlocate, hc, hstarts, hanchored⟩
  · rw [hlocate]
    exact iff_of_true (.root rest) hcause
  · rw [hlocate]
    exact iff_of_true (.context rest) (.inr (o.isAnchored_of_none hnone))
  · rw [hlocate]
    refine iff_of_false ?_ (by simp [hstarts, hanchored])
    rintro ⟨⟩
    exact hc rfl

/-- What is anchored is a path from the root wherever the script is; what is not is such a path nowhere. -/
theorem isRooted_value_locate_iff {ρ : Vars} (hρ : Path.IsRooted (ρ.text contextVariable)) :
    Path.IsRooted ((o.locate source).value ρ) ↔ (o.locate source).IsAnchored := by
  rcases o.locate_cases source with ⟨rest, hlocate, -⟩ | ⟨-, -, rest, hlocate⟩ |
      ⟨c, rest, hlocate, hc, -, -⟩
  · rw [hlocate]
    exact iff_of_true rfl (.root rest)
  · rw [hlocate]
    refine iff_of_true ?_ (.context rest)
    rw [Word.value, Path.IsRooted, List.head?_append, hρ]
    rfl
  · rw [hlocate]
    refine iff_of_false ?_ ?_
    · intro hrooted
      exact hc (Option.some.inj hrooted)
    · rintro ⟨⟩
      exact hc rfl

end Options

/-! ## The command's own choice -/

/-- The build context that the command chooses is an absolute path, unless its argument gives a relative
one. -/
theorem CommandLine.isAnchored_options_iff (a : Arguments) (w : World) :
    ((options World.host a).run w).1.IsAnchored ↔ ∀ dir ∈ a.context, dir = [] ∨ Path.IsRooted dir := by
  have hrun : ((options World.host a).run w).1.contextDir = ((contextDir World.host a).run w).1 := rfl
  rw [Options.IsAnchored, hrun, contextDir]
  cases hcontext : a.context with
  | some dir => rfl
  | none =>
    refine iff_of_true ?_ (by simp)
    intro dir hdir
    by_cases hinput : a.dockerfile = standardInput
    · simp only [if_pos hinput] at hdir
      cases hdir
    · -- The directory of the file is looked up, and what is found is told from the root.
      simp only [if_neg hinput] at hdir
      have hfound : w.tree.canonical? w.cwd (Path.directory a.dockerfile) = some dir := hdir
      rw [FileTree.canonical?] at hfound
      split at hfound
      · split at hfound
        · cases hfound
          exact .inr rfl
        · cases hfound
      · cases hfound

/-! ## Steps -/

section Steps

variable {o : Options} {files : FileView}

theorem extends_of_mem_traceFrom {s : State} {is : List Instruction} {step : Step}
    (h : step ∈ traceFrom o files s is) :
    step.state.Extends (stateAfter s (traceFrom o files s is)) := by
  induction is generalizing s with
  | nil => cases h
  | cons i is ih =>
    rw [traceFrom, stateAfter_cons]
    rcases List.mem_cons.1 h with rfl | h
    · exact extends_stateAfter (List.append_nil _).symm
    · exact ih h

/-- If a step refers to the build context, the prologue names it. -/
theorem contextLine_mem_prologue {input : Text} {step : Step} (h : step ∈ trace o files input)
    (huses : step.state.usesContext = true) : contextLine ∈ (compile o files input).prologue := by
  have hlast := (extends_of_mem_traceFrom h).usesContext huses
  rw [compile_eq_scriptOf, prologue_scriptOf_eq o _ (escapeOf input), trace, hlast, prologue_eq_append]
  exact List.mem_append_right _ List.mem_cons_self

end Steps

theorem Source.eq_of_copied? {w v : Word} (h : (Source.ofAdd w).copied? = some v) : v = w := by
  rcases Source.ofAdd_cases w with heq | heq | ⟨url, heq, -⟩
  · rw [heq] at h
    exact (Option.some.inj h).symm
  · rw [heq] at h
    cases h
  · rw [heq] at h
    cases h

theorem Source.eq_of_archive? {w v : Word} (h : (Source.ofAdd w).archive? = some v) : v = w := by
  rcases Source.ofAdd_cases w with heq | heq | ⟨url, heq, -⟩
  · rw [heq] at h
    cases h
  · rw [heq] at h
    exact (Option.some.inj h).symm
  · rw [heq] at h
    cases h

namespace Delivery

variable {d : Delivery} {o : Options} {files : FileView} {kind : Word → Source}

/-- What is copied or unpacked is the place of a source, and the state after it tells whether the build
context is referred to. -/
theorem exists_source_of_mem_shapeWith (hcopied : ∀ w v, (kind w).copied? = some v → v = w)
    (harchive : ∀ w v, (kind w).archive? = some v → v = w) {w : Word}
    (hw : w ∈ (d.shapeWith o files (d.sources.map kind)).copied ++
      (d.shapeWith o files (d.sources.map kind)).unpacked) (s : State) :
    ∃ source ∈ d.sources, w = o.locate source ∧ (o.usesContext source = true →
      (d.compile o files s (d.sources.map kind)).state.usesContext = true) := by
  have hpick : ∀ {pick : Source → Option Word}, (∀ w v, pick (kind w) = some v → v = w) →
      ∀ v ∈ (d.sources.map kind).filterMap pick, v ∈ d.sources := by
    intro pick hpick v hv
    rw [List.filterMap_map] at hv
    obtain ⟨source, hsource, hv⟩ := List.mem_filterMap.1 hv
    rwa [hpick source v hv]
  have huses : ∀ v ∈ d.ownSources o files (d.sources.map kind) ++
      (d.sources.map kind).filterMap Source.archive?, o.usesContext v = true →
        (d.compile o files s (d.sources.map kind)).state.usesContext = true := by
    intro v hv huses
    simp only [Delivery.compile, map_filter_ownFiles, Bool.or_eq_true, List.any_eq_true]
    exact .inr ⟨v, hv, huses⟩
  rcases List.mem_append.1 hw with hw | hw
  · obtain ⟨source, hsource, rfl⟩ := List.mem_map.1 hw
    have hmem := hpick hcopied source (List.mem_of_mem_filter hsource)
    exact ⟨source, hmem, rfl, huses source (List.mem_append_left _ hsource)⟩
  · obtain ⟨source, hsource, rfl⟩ := List.mem_map.1 hw
    have hmem := hpick harchive source hsource
    exact ⟨source, hmem, rfl, huses source (List.mem_append_right _ hsource)⟩

end Delivery

/-- `COPY` and `ADD` write commands, the lines of the files that are embedded, and what sets owner and mode.
What these commands copy and unpack are the places of sources. The place of a source is anchored if and only
if the source begins with a slash or the build context was not chosen by a relative path; then it is a path
from the root for all values of the variable of the build context that are, and else for none. If a place is
told by that variable, the prologue sets it. -/
theorem located_of_mem_trace {o : Options} {files : FileView} {input : Text} {step : Step}
    (hstep : step ∈ trace o files input) (hkeyword : step.instruction.keyword ∈ [.copy, .add])
    {lines : List Text} (hlines : step.lines = some lines) :
    ∃ (s : State) (d : Delivery) (kind : Word → Source),
      step = Step.ofInstruction o files s step.instruction ∧
      s.delivery? step.instruction.arguments = some d ∧
      lines = d.assemble ((d.shapeWith o files (d.sources.map kind)).work.map Posix.Command.text)
        (d.embeddedFiles o files (d.sources.map kind)) ∧
      ∀ w ∈ (d.shapeWith o files (d.sources.map kind)).copied ++
          (d.shapeWith o files (d.sources.map kind)).unpacked,
        ∃ source ∈ d.sources, w = o.locate source ∧
        (w.IsAnchored ↔ source.startsWith ['/'] = true ∨ o.IsAnchored) ∧
        (∀ ρ : Vars, Path.IsRooted (ρ.text contextVariable) →
          (Path.IsRooted (w.value ρ) ↔ w.IsAnchored)) ∧
        (∀ rest, w = .var contextVariable rest → contextLine ∈ (compile o files input).prologue) := by
  obtain ⟨before, after, hsplit⟩ := List.append_of_mem hstep
  have hof := eq_ofInstruction_of_traceFrom_eq hsplit
  generalize stateAfter (.initial (escapeOf input)) before = s at hof
  -- Both keywords compile a delivery; they differ in what they do with a source.
  obtain ⟨kind, hcopied, harchive, hkind⟩ : ∃ kind : Word → Source,
      (∀ w v, (kind w).copied? = some v → v = w) ∧ (∀ w v, (kind w).archive? = some v → v = w) ∧
        s.compile o files step.instruction =
          s.compileDelivery o files kind step.instruction.arguments := by
    unfold State.compile
    generalize step.instruction.keyword = keyword at hkeyword
    cases keyword with
    | copy => exact ⟨.copied, fun w v h => by cases h; rfl, (fun w v h => by cases h), rfl⟩
    | add => exact ⟨.ofAdd, fun w v h => Source.eq_of_copied? h, fun w v h => Source.eq_of_archive? h, rfl⟩
    | _ => simp at hkeyword
  have hcompile := hof
  rw [Step.ofInstruction, hkind] at hcompile
  unfold State.compileDelivery at hcompile
  split at hcompile
  · next outcome houtcome =>
    split at houtcome
    · cases houtcome
    · next d hd =>
      split at houtcome
      · cases houtcome
      · cases houtcome
        refine ⟨s, d, kind, hof, hd, ?_, ?_⟩
        · rw [hcompile] at hlines
          rw [← Delivery.lines_compile_shapeWith d o files s]
          exact (Option.some.inj hlines).symm
        · intro w hw
          obtain ⟨source, hsource, rfl, huses⟩ :=
            Delivery.exists_source_of_mem_shapeWith hcopied harchive hw s
          refine ⟨source, hsource, rfl, o.isAnchored_locate_iff source,
            fun ρ hρ => o.isRooted_value_locate_iff source hρ, ?_⟩
          intro rest hrest
          apply contextLine_mem_prologue hstep
          rw [hcompile]
          apply huses
          rcases o.locate_cases source with ⟨_, hlocate, -⟩ | ⟨-, hcontext, -⟩ | ⟨c, _, hlocate, -⟩
          · rw [hlocate] at hrest
            cases hrest
          · exact hcontext
          · rw [hlocate] at hrest
            cases hrest
  · rw [hcompile] at hlines
    cases hlines

/-- A source behind a change of directory, without a chosen build context. -/
theorem located_of_mem_trace_default : ∃ (d : Delivery) (kind : Word → Source),
    ["mkdir -p / && cp -R \"$\x7bDOCKER2SH_CONTEXT\x7d\"/a* /b".toList] =
      d.assemble ((d.shapeWith {} (fun _ => none) (d.sources.map kind)).work.map Posix.Command.text)
        (d.embeddedFiles {} (fun _ => none) (d.sources.map kind)) ∧
    ∀ w ∈ (d.shapeWith {} (fun _ => none) (d.sources.map kind)).copied ++
      (d.shapeWith {} (fun _ => none) (d.sources.map kind)).unpacked, w.IsAnchored := by
  have htrace : (trace {} (fun _ => none) "WORKDIR /app\nCOPY a* /b".toList).any (fun step =>
      step.instruction.keyword = .copy &&
        step.lines = some ["mkdir -p / && cp -R \"$\x7bDOCKER2SH_CONTEXT\x7d\"/a* /b".toList]) = true := by
    decide +kernel
  obtain ⟨step, hstep, hlines⟩ := List.any_eq_true.1 htrace
  rw [Bool.and_eq_true, decide_eq_true_eq, decide_eq_true_eq] at hlines
  obtain ⟨-, d, kind, -, -, hwork, hlocated⟩ :=
    located_of_mem_trace hstep (by rw [hlines.1]; decide) hlines.2
  refine ⟨d, kind, hwork, fun w hw => ?_⟩
  obtain ⟨source, -, -, hanchored, -⟩ := hlocated w hw
  exact hanchored.2 (.inr (Options.isAnchored_of_none _ rfl))

/-- Below a directory that was chosen by a relative path, a source is looked for where the script is. -/
theorem located_relative :
    (compile { contextDir := some "ctx".toList } (fun _ => none)
        "WORKDIR /app\nCOPY a /b".toList).statements =
      ["mkdir -p /app && cd /app".toList, "mkdir -p / && cp -R ctx/a /b".toList] ∧
    (Options.locate { contextDir := some "ctx".toList } (.literal "a".toList)).toShellGlob =
      "ctx/a".toList ∧
    ¬(Options.locate { contextDir := some "ctx".toList } (.literal "a".toList)).IsAnchored := by
  refine ⟨by decide +kernel, by decide +kernel, ?_⟩
  rw [Options.isAnchored_locate_iff, Options.isAnchored_iff_of_some _ rfl, Path.IsRooted]
  decide

end BuildScript
