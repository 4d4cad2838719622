import BuildScript.Proofs.Compile.Anchoring
import BuildScript.Proofs.Compile.Append
import BuildScript.Proofs.Compile.Users
import BuildScript.Proofs.Word.Ends

/-!
# The working directory after `WORKDIR`

Each `WORKDIR` is resolved in the directory that those before it left, and what it comes to is normalized.
Normalizing at each step is the same as normalizing once, at the end (`Path.foldl_enter`). So the working
directory is told by the arguments from the last one on that begins at the root, written one behind the other,
whatever instructions stand between them (`State.workingDir_after_of_isRooted`). The line of each `WORKDIR` makes
the directory that it comes to and enters it (`Posix.makesAndEnters`).
-/

namespace BuildScript

/-! ## Directories one after the other -/

namespace Path

/-- Whether a path is written as steps down from the root. A slash may stand at its end, if it has steps. -/
def IsNormal (path : Text) : Prop :=
  ∃ steps, (∀ c ∈ steps, IsStep c) ∧
    (path = '/' :: Text.join ['/'] steps ∨ steps ≠ [] ∧ path = '/' :: Text.join ['/'] steps ++ ['/'])

theorem isNormal_normalize (path : Text) : IsNormal (normalize path) := by
  refine ⟨components path, fun _ => isStep_of_mem_components, ?_⟩
  simp only [normalize]
  split
  · next h =>
    rw [Bool.and_eq_true, Bool.not_eq_true', List.isEmpty_eq_false_iff] at h
    exact .inr ⟨h.2, rfl⟩
  · rw [List.append_nil]
    exact .inl rfl

theorem endsInSlash_normalize_iff (path : Text) :
    endsInSlash (normalize path) = true ↔ normalize path = ['/'] ∨ endsInSlash path = true := by
  by_cases h : components path = []
  · have hroot : normalize path = ['/'] := by simp [normalize, h, Text.join]
    rw [hroot]
    simp [endsInSlash]
  · have hroot : normalize path ≠ ['/'] := fun hroot => h (by rw [← components_normalize, hroot]; rfl)
    rw [endsInSlash_normalize h, or_iff_right hroot]

/-- The directory that is entered from another one. -/
def enter (dir path : Text) : Text := normalize (seenFrom dir path)

/-- Normalizing at each step is normalizing once. -/
theorem foldl_enter {paths : List Text} (h : ∀ path ∈ paths, ¬IsRooted path) (dir : Text) :
    paths.foldl enter (normalize dir) = normalize (Text.join ['/'] (dir :: paths)) := by
  induction paths generalizing dir with
  | nil => rfl
  | cons path rest ih =>
    obtain ⟨hpath, hrest⟩ := List.forall_mem_cons.1 h
    have henter : enter (normalize dir) path = normalize (dir ++ '/' :: path) := by
      rw [enter, seenFrom, if_neg hpath, normalize_normalize_append]
    have hjoin : Text.join ['/'] ((dir ++ '/' :: path) :: rest) = Text.join ['/'] (dir :: path :: rest) := by
      cases rest <;> simp [Text.join]
    rw [List.foldl_cons, henter, ih hrest, hjoin]

theorem foldl_enter_root {paths : List Text} (h : ∀ path ∈ paths, ¬IsRooted path) :
    paths.foldl enter ['/'] = normalize ('/' :: Text.join ['/'] paths) := by
  have hroot : normalize [] = ['/'] := rfl
  rw [← hroot, foldl_enter h]
  cases paths with
  | nil => rfl
  | cons path rest => rw [Text.join_cons (List.cons_ne_nil _ _)]; rfl

theorem normalize_slashed_append (dir path : Text) :
    normalize (slashed dir ++ path) = normalize (dir ++ '/' :: path) := by
  unfold slashed
  split
  · next hslash =>
    obtain ⟨front, rfl⟩ := exists_of_endsInSlash hslash
    rw [normalize_append_slashes (by simp), List.append_assoc, List.singleton_append]
  · rw [List.append_assoc, List.singleton_append]

end Path

/-! ## Resolving -/

namespace State

variable {s : State} {o : Options} {files : FileView} {i : Instruction} {dir path : Text}

theorem resolve_literal_of_isRooted (s : State) (h : Path.IsRooted path) :
    s.resolve (.literal path) = .literal (Path.normalize path) := by
  simp only [resolve, if_pos (Word.startsWith_literal.2 h), Word.text?_literal]

theorem resolve_literal (hdir : s.workingDir = .literal dir) (path : Text) :
    s.resolve (.literal path) = .literal (Path.enter dir path) := by
  unfold Path.enter Path.seenFrom
  split
  · next hrooted => exact s.resolve_literal_of_isRooted hrooted
  · next hrooted =>
    have hjoined : s.workingDir.withSlash ++ .literal path = .literal (Path.slashed dir ++ path) := by
      rw [hdir, Word.withSlash_literal, Word.literal_append]
    have hstarts : ¬(Word.literal path).startsWith ['/'] = true := mt Word.startsWith_literal.1 hrooted
    unfold Word.withSlash at hjoined
    simp only [resolve, if_neg hstarts, hjoined, Word.text?_literal]
    rw [Path.normalize_slashed_append]

/-! ## The arguments of `WORKDIR` -/

/-- The argument of an instruction as `WORKDIR` takes it: its words with a blank between them, expanded. -/
def argument (s : State) (i : Instruction) : Word :=
  s.expand (Word.join [' '] (Word.lexAll s.escape i.arguments))

/-- The argument of an instruction, if it is `WORKDIR` and is not left out. -/
def entered (s : State) (i : Instruction) : List Word :=
  if i.keyword = .workdir ∧ s.compileWorkdir i.arguments ≠ none then [s.argument i] else []

theorem compileWorkdir_eq_some {outcome : Outcome} (h : s.compileWorkdir i.arguments = some outcome) :
    outcome.lines = [Posix.Statement.text [Posix.Command.makeDirectory (.word (s.resolve (s.argument i))),
        Posix.Command.fixed ["cd"] ++ [.word (s.resolve (s.argument i))]]] ∧
      outcome.state = { s with workdir := some (s.resolve (s.argument i)) } := by
  obtain ⟨-, rfl⟩ := compileWorkdir_eq_some_iff.1 h
  exact ⟨rfl, rfl⟩

theorem compile_workdir (h : i.keyword = .workdir) : s.compile o files i = s.compileWorkdir i.arguments := by
  rw [compile, h]

/-- What an instruction does to the working directory. -/
theorem workingDir_ofInstruction (o : Options) (files : FileView) (s : State) (i : Instruction) :
    (Step.ofInstruction o files s i).state.workingDir =
      (s.entered i).foldl (fun _ path => s.resolve path) s.workingDir := by
  unfold entered
  split
  · next h =>
    obtain ⟨hkeyword, hne⟩ := h
    obtain ⟨outcome, hc⟩ := Option.ne_none_iff_exists'.1 hne
    have hstep : Step.ofInstruction o files s i = ⟨i, some outcome.lines, outcome.state⟩ := by
      rw [Step.ofInstruction, compile_workdir hkeyword, hc]
    rw [hstep, (compileWorkdir_eq_some hc).2]
    rfl
  · next h =>
    have hsame : Part.workdir.Same s (Step.ofInstruction o files s i).state := by
      refine same_ofInstruction fun hlines hkeyword => h ⟨hkeyword, ?_⟩
      obtain ⟨lines, hlines⟩ := Option.ne_none_iff_exists'.1 hlines
      obtain ⟨outcome, hc, -⟩ := exists_compile_of_lines hlines
      rw [← compile_workdir hkeyword, hc]
      exact Option.some_ne_none outcome
    exact congrArg (fun dir => Option.getD dir (.literal ['/'])) hsame

end State

/-! ## Runs -/

namespace State

variable {o : Options} {files : FileView} {s : State} {is : List Instruction}

/-- The state after some instructions. -/
def after (o : Options) (files : FileView) (s : State) (is : List Instruction) : State :=
  stateAfter s (traceFrom o files s is)

/-- The arguments of the instructions `WORKDIR` among some, each expanded in its own state; those that are left
out have none. -/
def enteredBy (o : Options) (files : FileView) (s : State) : List Instruction → List Word
  | [] => []
  | i :: rest => s.entered i ++ enteredBy o files (Step.ofInstruction o files s i).state rest

theorem after_cons (s : State) (i : Instruction) (rest : List Instruction) :
    s.after o files (i :: rest) = (Step.ofInstruction o files s i).state.after o files rest :=
  stateAfter_cons _ _ _

theorem after_concat (s : State) (is : List Instruction) (i : Instruction) :
    s.after o files (is ++ [i]) = (Step.ofInstruction o files (s.after o files is) i).state := by
  rw [after, traceFrom_append, stateAfter_append]
  rfl

theorem enteredBy_concat (s : State) (is : List Instruction) (i : Instruction) :
    s.enteredBy o files (is ++ [i]) = s.enteredBy o files is ++ (s.after o files is).entered i := by
  induction is generalizing s with
  | nil => exact List.append_nil _
  | cons j rest ih => rw [List.cons_append, enteredBy, ih, enteredBy, after_cons, List.append_assoc]

theorem reachable_after (o : Options) (files : FileView) (escape : Char) (is : List Instruction) :
    ((State.initial escape).after o files is).Reachable escape :=
  reachable_stateAfter (List.append_nil _).symm

theorem entered_cases (s : State) (i : Instruction) : s.entered i = [] ∨ s.entered i = [s.argument i] := by
  unfold entered
  split
  · exact .inr rfl
  · exact .inl rfl

/-- Arguments without references lead from one directory to the next. The induction is on the instructions;
the state after the first one has the directory that its argument leads to. -/
theorem workingDir_after {dir : Text} (hdir : s.workingDir = .literal dir) {paths : List Text}
    (h : s.enteredBy o files is = paths.map .literal) :
    (s.after o files is).workingDir = .literal (paths.foldl Path.enter dir) := by
  induction is generalizing s dir paths with
  | nil =>
    obtain rfl : paths = [] := List.map_eq_nil_iff.1 h.symm
    exact hdir
  | cons i rest ih =>
    have hstep := s.workingDir_ofInstruction o files i
    rw [after_cons]
    rw [enteredBy] at h
    rcases s.entered_cases i with hnone | hone
    · rw [hnone] at h hstep
      exact ih (hstep.trans hdir) h
    · rw [hone] at h hstep
      obtain ⟨path, others, rfl, hpath, hothers⟩ := List.map_eq_cons_iff.1 h.symm
      rw [← hpath] at hstep
      exact ih (hstep.trans (s.resolve_literal hdir path)) hothers.symm

/-- What was entered before an argument from the root makes no difference. -/
theorem workingDir_after_of_isRooted {before : List Word} {path : Text} (hpath : Path.IsRooted path)
    {paths : List Text} (h : s.enteredBy o files is = before ++ (path :: paths).map .literal) :
    (s.after o files is).workingDir = .literal (paths.foldl Path.enter (Path.normalize path)) := by
  induction is generalizing s before with
  | nil => simp [enteredBy] at h
  | cons i rest ih =>
    have hstep := s.workingDir_ofInstruction o files i
    rw [after_cons]
    rw [enteredBy] at h
    rcases s.entered_cases i with hnone | hone
    · rw [hnone] at h
      exact ih h
    · rw [hone] at h hstep
      cases before with
      | nil =>
        obtain ⟨hargument, hrest⟩ := List.cons.inj h
        rw [hargument] at hstep
        exact workingDir_after (hstep.trans (s.resolve_literal_of_isRooted hpath)) hrest
      | cons w before => exact ih (List.cons.inj h).2

end State

/-! ## Lines -/

/-- Whether a shell reads a line as a command that makes a directory and, if it succeeds, one that enters it. -/
def Posix.MakesAndEnters (m : Machine) (ρ : Vars) (line dir : Text) : Prop :=
  ∃ ts us, read line = some (ts ++ .op "&&".toList :: us) ∧
    (words? ts).bind (allFields? m ρ) = some ["mkdir".toList, "-p".toList, dir] ∧
    (words? us).bind (allFields? m ρ) = some ["cd".toList, dir]

theorem Posix.makesAndEnters {dir : Word} (hnamed : dir.named = true) (hclosed : dir.closed = true)
    (m : Machine) (ρ : Vars) :
    MakesAndEnters m ρ (Statement.text [Command.makeDirectory (.word dir), Command.fixed ["cd"] ++ [.word dir]])
      (dir.value ρ) := by
  have hmake : ∀ w ∈ [.literal "mkdir".toList, .literal "-p".toList, dir], w.named = true ∧ w.closed = true := by
    simp [hnamed, hclosed, Word.closed_literal]
  have henter : ∀ w ∈ [.literal "cd".toList, dir], w.named = true ∧ w.closed = true := by
    simp [hnamed, hclosed, Word.closed_literal]
  obtain ⟨mss, hmss, hwords, hfields⟩ := State.exists_run_join_of_closed hmake Reader.isBare_start
  have hbehind : ((Reader.start.addAll (spaced mss)).addAll Reader.between).IsBare :=
    (Reader.isBare_start.addAll _).addAll _
  obtain ⟨nss, hnss, hwords', hfields'⟩ := State.exists_run_join_of_closed henter hbehind
  have hne : mss ≠ [] := by
    rintro rfl
    cases hfields m ρ
  have hrun : Reader.start.run (Statement.text
      [Command.makeDirectory (.word dir), Command.fixed ["cd"] ++ [.word dir]]) =
      Reader.start.addAll (spaced mss ++ (Reader.between ++ spaced nss)) := by
    have htext : Statement.text [Command.makeDirectory (.word dir), Command.fixed ["cd"] ++ [.word dir]] =
        Text.join [' '] ([.literal "mkdir".toList, .literal "-p".toList, dir].map Word.toShell) ++
          " && ".toList ++ Text.join [' '] ([.literal "cd".toList, dir].map Word.toShell) := rfl
    rw [htext, Reader.run_append, Reader.run_append, hmss, (Reader.isBare_start.addAll _).run_and, hnss,
      Reader.addAll_addAll, Reader.addAll_addAll]
  have htokens : tokens (spaced mss ++ (Reader.between ++ spaced nss)) =
      mss.map .word ++ .op "&&".toList :: nss.map .word := by
    rw [← tokens_spaced hwords', ← tokens_and]
    exact tokens_spaced_blank hwords hne _
  refine ⟨mss.map .word, nss.map .word, ?_, ?_, ?_⟩
  · rw [read_of_run hrun, htokens]
  · rw [words?_map_word, Option.bind_some, hfields]
    simp
  · rw [words?_map_word, Option.bind_some, hfields']
    simp

/-- Normalizing gives a path that is written as steps down from the root, with a slash at its end only if the
path has one there or the root is meant. It changes nothing if it is done twice, or in front of a slash first. So
after any instructions, if all that was entered by `WORKDIR` had no references when it was expanded, the working
directory is what the arguments come to if they are written one behind the other and normalized once: those from
the last one on that begins at the root, or all of them below the root. If `WORKDIR` comes next and is not left
out, its argument is the last one; it has one line, which makes the working directory that it comes to and enters
it. -/
theorem normalize_workingDir (o : Options) (files : FileView) (escape : Char) :
    (∀ path, Path.IsNormal (Path.normalize path) ∧
      (Path.endsInSlash (Path.normalize path) = true ↔
        Path.normalize path = ['/'] ∨ Path.endsInSlash path = true) ∧
      Path.normalize (Path.normalize path) = Path.normalize path) ∧
    (∀ s t, Path.normalize (s ++ '/' :: t) = Path.normalize (Path.normalize s ++ '/' :: t)) ∧
    ∀ is,
      (∀ paths, (State.initial escape).enteredBy o files is = paths.map .literal →
        (∀ path ∈ paths, ¬Path.IsRooted path) →
        ((State.initial escape).after o files is).workingDir =
          .literal (Path.normalize ('/' :: Text.join ['/'] paths))) ∧
      (∀ before path paths,
        (State.initial escape).enteredBy o files is = before ++ (path :: paths).map .literal →
        Path.IsRooted path → (∀ path ∈ paths, ¬Path.IsRooted path) →
        ((State.initial escape).after o files is).workingDir =
          .literal (Path.normalize (Text.join ['/'] (path :: paths)))) ∧
      ∀ i lines, i.keyword = .workdir →
        (Step.ofInstruction o files ((State.initial escape).after o files is) i).lines = some lines →
        let next := (State.initial escape).after o files (is ++ [i])
        (State.initial escape).enteredBy o files (is ++ [i]) =
          (State.initial escape).enteredBy o files is ++
            [((State.initial escape).after o files is).argument i] ∧
        ∃ line, lines = [line] ∧
          (next.workingDir.closed = true → ∀ (m : Posix.Machine) (ρ : Vars),
            Path.IsRooted (next.workingDir.value ρ) ∧
            Posix.MakesAndEnters m ρ line (next.workingDir.value ρ)) := by
  refine ⟨fun path => ⟨Path.isNormal_normalize path, Path.endsInSlash_normalize_iff path,
    Path.normalize_normalize path⟩, fun s t => (Path.normalize_normalize_append s t).symm, fun is =>
    ⟨fun paths hpaths hrelative => ?_, fun before path paths hpaths hrooted hrelative => ?_, ?_⟩⟩
  · rw [← Path.foldl_enter_root hrelative]
    exact State.workingDir_after rfl hpaths
  · rw [← Path.foldl_enter hrelative]
    exact State.workingDir_after_of_isRooted hrooted hpaths
  · intro i lines hkeyword hlines next
    obtain ⟨outcome, hcompile, rfl, hstate⟩ := State.exists_compile_of_lines hlines
    rw [State.compile_workdir hkeyword] at hcompile
    obtain ⟨hline, hnext⟩ := State.compileWorkdir_eq_some hcompile
    rw [hnext, ← State.after_concat] at hstate
    have hentered : ((State.initial escape).after o files is).entered i = [_] :=
      if_pos ⟨hkeyword, by rw [hcompile]; exact Option.some_ne_none outcome⟩
    refine ⟨?_, _, hline, fun hclosed m ρ => ?_⟩
    · rw [State.enteredBy_concat, hentered]
    · have hdir : next.workdir = some _ := congrArg State.workdir hstate
      obtain ⟨hplace, hnamed⟩ := (State.reachable_after o files escape (is ++ [i])).wellFormed.workdir _ hdir
      have hworking : next.workingDir = _ := congrArg State.workingDir hstate
      rw [hworking] at hclosed ⊢
      exact ⟨Word.isRooted_value hplace.root ρ, Posix.makesAndEnters hnamed hclosed m ρ⟩

/-- A directory from the root behind another one, a recorded variable, and a command between them. -/
theorem normalize_workingDir_recorded :
    let s := State.initial '\\'
    let is := instructions "WORKDIR /opt\nWORKDIR /srv//x/.\nENV D=../app/\nWORKDIR $D\nRUN make".toList
    let i : Instruction := ⟨.workdir, [], "./lib/../my bin/".toList, 6, []⟩
    s.enteredBy {} (fun _ => none) (is ++ [i]) =
      [.literal "/opt".toList] ++
        ["/srv//x/.".toList, "../app/".toList, "./lib/../my bin/".toList].map .literal ∧
    (s.after {} (fun _ => none) (is ++ [i])).workingDir =
      .literal (Path.normalize "/srv//x/./../app//./lib/../my bin/".toList) ∧
    (Step.ofInstruction {} (fun _ => none) (s.after {} (fun _ => none) is) i).lines =
      some ["mkdir -p '/srv/app/my bin/' && cd '/srv/app/my bin/'".toList] ∧
    ∀ ρ : Vars, Posix.MakesAndEnters (.bare []) ρ "mkdir -p '/srv/app/my bin/' && cd '/srv/app/my bin/'".toList
      "/srv/app/my bin/".toList := by
  intro s is i
  have hentered : s.enteredBy {} (fun _ => none) (is ++ [i]) =
      [.literal "/opt".toList] ++
        ["/srv//x/.".toList, "../app/".toList, "./lib/../my bin/".toList].map .literal := by
    decide +kernel
  have hlines : (Step.ofInstruction {} (fun _ => none) (s.after {} (fun _ => none) is) i).lines =
      some ["mkdir -p '/srv/app/my bin/' && cd '/srv/app/my bin/'".toList] := by
    decide +kernel
  have hnormal : Path.normalize (Text.join ['/']
      ["/srv//x/.".toList, "../app/".toList, "./lib/../my bin/".toList]) = "/srv/app/my bin/".toList := by
    decide +kernel
  obtain ⟨-, -, hruns⟩ := normalize_workingDir {} (fun _ => none) '\\'
  have hdir := (hruns (is ++ [i])).2.1 _ "/srv//x/.".toList ["../app/".toList, "./lib/../my bin/".toList]
    hentered rfl (by decide)
  obtain ⟨-, line, hline, henters⟩ := (hruns is).2.2 i _ rfl hlines
  refine ⟨hentered, hdir, hlines, fun ρ => ?_⟩
  rw [hdir, ← List.singleton_inj.1 hline] at henters
  have hfields := (henters (Word.closed_literal _) (.bare []) ρ).2
  rwa [Word.value_literal, hnormal] at hfields

end BuildScript
