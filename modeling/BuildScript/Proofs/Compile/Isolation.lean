import BuildScript.Proofs.Compile.Clean
import BuildScript.Proofs.Compile.Trace
import BuildScript.Proofs.Compile.Wrapping
import BuildScript.Proofs.Shell.Lasting

/-!
# Commands that are kept to themselves

A line of `RUN` that acts on the shell which runs it would change what later lines of the script find: their
directory, their variables, their options. Such a line is written in parentheses, and to a shell these are
operators with the commands of the line between them (`isolated_of_acts`).

The scan that looks for such lines knows no redirections, no expansions and no comments. So some of them are
run as they are (`not_isolated_of_actsIn`): where a redirection stands before the name of a command or touches
it, or behind nothing but assignments; where an assignment has a blank in an expansion; where quotes stand in
an expansion that is quoted; and where a comment stands behind assignments. A comment also hides the
parenthesis that should close.
-/

namespace BuildScript

open Posix (Reader)

/-! ## Lines without line feeds -/

theorem feed_notMem_normalizeBlanks {t : Text} (h : '\n' ∉ t) : '\n' ∉ normalizeBlanks t := by
  intro hmem
  rcases mem_of_mem_collapse hmem with hmem | hmem
  · exact h (Text.trim_subset t hmem)
  · cases hmem

/-! ## Lines in parentheses -/

/-- A line in parentheses that runs in the working directory of a state is read between operators. -/
theorem exists_run_parentheses {s : State} (hs : s.Named) {line placed : Text} (hplaced : Placed s line placed)
    {ms : List Posix.Mark} (hread : (Reader.start.run line).marks? = some ms)
    (hcloser : (Reader.start.run line).closer = .script)
    (hcomment : (Reader.start.run line).pending ≠ .comment) :
    ∃ before, Reader.start.run ('(' :: placed ++ [')']) =
      Reader.start.addAll (.op '(' :: before ++ ms ++ [.op ')']) := by
  have hopen : ∀ t, Reader.start.run ('(' :: t) = (Reader.start.addAll [.op '(']).run t := fun _ => rfl
  have hstart : (Reader.start.addAll [.op '(']).atWordStart = true := rfl
  obtain ⟨lead, hlead, hns, -⟩ := exists_run_placed hs hplaced hstart
  refine ⟨lead, ?_⟩
  rw [List.cons_append, hopen, Reader.run_append, hlead, Reader.run_cons, Reader.run_nil,
    Reader.shift_parenthesis hread hcloser hcomment hns]
  rfl

variable {o : Options} {files : FileView} {input : Text} {before after : List Step} {step : Step}

/-- A shell line of `RUN` is in parentheses if no user is set and one of its simple commands acts on the
shell, and to a shell the parentheses are operators around it. The start of that command has to be plain, the
quotes have to be flat, and no comment may stand in the line. -/
theorem isolated_of_acts (htrace : trace o files input = before ++ step :: after)
    (hkeyword : step.instruction.keyword = .run)
    (huser : (stateAfter (.initial (escapeOf input)) before).user = none) {line : Text}
    (hline : Command.ofText step.instruction.arguments = .shell line) {ms seg : List Posix.Mark}
    (hread : (Reader.start.run line).marks? = some ms) (hseg : seg ∈ Posix.commandsOf ms)
    (hacts : Posix.acts seg = true) (hplain : Posix.startsPlain seg = true)
    (hflat : Reader.start.isFlat .start line = true)
    (hcomment : (Reader.start.run line).pending ≠ .comment) :
    ∃ body marks, step.lines = some ['(' :: body ++ [')']] ∧
      Reader.start.run ('(' :: body ++ [')']) =
        Reader.start.addAll (.op '(' :: marks ++ ms ++ [.op ')']) := by
  have hstep : step = Step.ofInstruction o files (stateAfter (.initial (escapeOf input)) before)
      step.instruction := eq_ofInstruction_of_traceFrom_eq htrace
  have hnamed : (stateAfter (.initial (escapeOf input)) before).Named :=
    stateAfter_induction (fun _ i _ hs => hs.ofInstruction i) (State.named_initial _) htrace
  have hfeed : '\n' ∉ line := by
    have hmem : step ∈ trace o files input := htrace ▸ List.mem_append_right _ List.mem_cons_self
    have hnormal : line = normalizeBlanks step.instruction.arguments := by
      unfold Command.ofText at hline
      split at hline
      · cases hline
      · exact (Command.shell.inj hline).symm
    rw [hnormal]
    exact feed_notMem_normalizeBlanks (feed_notMem_arguments (mem_instructions_of_mem_trace hmem))
  have hchanges := Posix.changesState_of_mem_commandsOf hread hfeed hflat hcomment hseg hacts hplain
  have hcloser : (Reader.start.run line).closer = .script :=
    (Posix.follows_start.run hfeed hflat).closer (Posix.outer_of_marks? hread).1
  generalize stateAfter (.initial (escapeOf input)) before = s at hstep huser hnamed
  have hempty : (Command.shell line).isEmpty = false := by
    cases line with
    | nil => cases hchanges
    | cons c rest => rfl
  have hasUser : s.asUser line = line := by rw [State.asUser, huser]
  have hrun : s.runLine line = '(' :: s.inWorkdir line ++ [')'] := by
    rw [State.runLine, huser, hchanges, hasUser]
    rfl
  have hcompile : s.compile o files step.instruction = some (.ofLine (s.runLine line) s) := by
    rw [State.compile, hkeyword]
    simp only [State.compileRun, hline, hempty]
    rfl
  have hlines : step.lines = some ['(' :: s.inWorkdir line ++ [')']] := by
    rw [hstep, Step.ofInstruction, hcompile, hrun]
    rfl
  obtain ⟨marks, hmarks⟩ := exists_run_parentheses hnamed (placed_inWorkdir s line) hread hcloser hcomment
  exact ⟨_, marks, hlines, hmarks⟩

/-- A word that introduces the command, an assignment with quotes inside quotes, and a name that is quoted in
part, behind another command. -/
theorem isolated_of_acts_if : ∃ step body marks ms,
    trace {} (fun _ => none) "RUN ls >x; if ! A=\"$(f \"$0\")\" 'c'd /; then B=1; fi".toList = [step] ∧
    step.lines = some ['(' :: body ++ [')']] ∧
    Reader.start.run ('(' :: body ++ [')']) =
      Reader.start.addAll (.op '(' :: marks ++ ms ++ [.op ')']) := by
  obtain ⟨a, ha⟩ : ∃ a, a = "ls >x; if ! A=\"$(f \"$0\")\" 'c'd /; then B=1; fi".toList := ⟨_, rfl⟩
  have hinput : "RUN ls >x; if ! A=\"$(f \"$0\")\" 'c'd /; then B=1; fi".toList =
      Keyword.run.name ++ ' ' :: a := by
    rw [ha]
    rfl
  have hinstructions := instructions_line (k := .run) (a := a) (by decide)
    (Text.isTrimmed_iff.2 (by rw [ha]; decide)) (by rw [ha]; decide) (by rw [ha]; decide)
    (by rw [ha]; decide)
  have hfound : ((Reader.start.run a).marks?.any fun ms =>
      (Posix.commandsOf ms).any fun seg => Posix.acts seg && Posix.startsPlain seg) = true := by
    rw [ha]
    decide +kernel
  obtain ⟨ms, hread, hsegs⟩ := (Option.any_eq_true _ _).1 hfound
  obtain ⟨seg, hseg, hseen⟩ := List.any_eq_true.1 hsegs
  obtain ⟨hacts, hplain⟩ := Bool.and_eq_true_iff.1 hseen
  obtain ⟨step, hstep⟩ : ∃ step, step = Step.ofInstruction {} (fun _ => none)
    (.initial (escapeOf (Keyword.run.name ++ ' ' :: a)))
    ⟨.run, Keyword.run.name, a, 1, Keyword.run.name ++ ' ' :: a⟩ := ⟨_, rfl⟩
  have htrace : trace {} (fun _ => none) (Keyword.run.name ++ ' ' :: a) = [] ++ step :: [] := by
    rw [trace, hinstructions, hstep]
    rfl
  have hinstruction := congrArg Step.instruction hstep
  rw [instruction_ofInstruction] at hinstruction
  obtain ⟨body, marks, hlines, hshell⟩ := isolated_of_acts htrace
    (by rw [hinstruction]) rfl (by rw [hinstruction, ha]; decide +kernel) hread hseg hacts hplain
    (by rw [ha]; decide +kernel) (by rw [ha]; decide +kernel)
  exact ⟨step, body, marks, ms, hinput ▸ htrace, hlines, hshell⟩

/-- Lines that act on the shell and are run as they are. -/
theorem not_isolated_of_actsIn :
    ([">log cd /tmp", "cd>log", "A=1 >log", "A=\x60date +%s\x60", "A=$\x7bB:-x y\x7d",
        "A=\"$(echo \"a b\")\"", "echo \"$(echo 'it\"s')\"; cd /tmp", "A=1 # x"].map String.toList).all
      (fun line => Posix.actsIn line &&
        (compile {} (fun _ => none) ("RUN ".toList ++ line)).statements == [line]) = true := by
  decide +kernel

end BuildScript
