import BuildScript.Compile
import BuildScript.Proofs.Dockerfile.Directive
import BuildScript.Proofs.Dockerfile.LogicalText
import BuildScript.Proofs.Json.Printed
import BuildScript.Proofs.Posix.SimpleCommand

/-!
# Commands as arrays

`RUN`, `CMD` and `ENTRYPOINT` take a command as a JSON array. From the line of the build file to the line
of the script the items of the array are kept, and a shell that reads that line splits it into them
(`compile_array`). It does not always take them for a command, though: the first one may be written as an
assignment or as a word that is reserved.
-/

namespace BuildScript

/-! ## An instruction on one line -/

theorem keyword_ofText_name {k : Keyword} (hk : k ≠ .unknown) : Keyword.ofText k.name = k := by
  cases k with
  | unknown => exact absurd rfl hk
  | _ => decide

theorem upper_name (k : Keyword) : Text.upper k.name = k.name := by
  cases k <;> decide

theorem isBlank_of_mem_name {k : Keyword} {c : Char} (hc : c ∈ k.name) : isBlank c = false := by
  have hall : k.name.all (fun c => !isBlank c) = true := by cases k <;> decide
  simpa using List.all_eq_true.1 hall c hc

theorem exists_name_eq_cons (k : Keyword) : ∃ c rest, k.name = c :: rest ∧ c ≠ '#' := by
  cases k <;> exact ⟨_, _, rfl, by decide⟩

variable {k : Keyword} {a : Text}

theorem isLogical_line (htrimmed : Text.IsTrimmed a) (hne : a ≠ []) (hfeed : '\n' ∉ a) :
    LogicalLine.IsLogical (k.name ++ ' ' :: a) := by
  obtain ⟨c, rest, hname, hcomment⟩ := exists_name_eq_cons k
  have hhead : (k.name ++ ' ' :: a).head? = some c := by rw [hname]; rfl
  refine ⟨by simp, ⟨?_, ?_⟩, ?_, ?_⟩
  · intro d hd
    rw [hhead] at hd
    cases hd
    exact isBlank_of_mem_name (hname ▸ List.mem_cons_self)
  · intro d hd
    apply htrimmed.last
    rwa [List.getLast?_append_of_ne_nil _ (by simp), ← List.singleton_append,
      List.getLast?_append_of_ne_nil _ hne] at hd
  · intro hmem
    rcases List.mem_append.1 hmem with hmem | hmem
    · exact absurd (isBlank_of_mem_name hmem) (by decide)
    · rcases List.mem_cons.1 hmem with hmem | hmem
      · cases hmem
      · exact hfeed hmem
  · rw [hhead]
    simpa using hcomment

theorem instruction_ofLine (hk : k ≠ .unknown) (htrimmed : Text.IsTrimmed a) (hne : a ≠ [])
    (hfeed : '\n' ∉ a) (n : Nat) :
    Instruction.ofLine ⟨n, k.name ++ ' ' :: a⟩ =
      { keyword := k, name := k.name, arguments := a, line := n, source := k.name ++ ' ' :: a } := by
  have hsource : Text.trim (k.name ++ ' ' :: a) = k.name ++ ' ' :: a :=
    (isLogical_line htrimmed hne hfeed).trimmed.trim_eq
  have hletters : ∀ c ∈ k.name, (!isBlank c) = true := by
    intro c hc
    rw [isBlank_of_mem_name hc]
    rfl
  have hcut : Text.beforeBlank (k.name ++ ' ' :: a) = (k.name, ' ' :: a) := by
    rw [Text.beforeBlank, List.takeWhile_append_of_pos hletters, List.dropWhile_append_of_pos hletters]
    have hspace : isBlank ' ' = true := rfl
    simp [hspace]
  have hblank : Text.Blanks [' '] := fun c hc => List.mem_singleton.1 hc ▸ rfl
  have harguments : Text.trim (' ' :: a) = a := by
    have htrim := htrimmed.trim_surround hblank Text.blanks_nil
    rwa [List.append_nil] at htrim
  simp only [Instruction.ofLine, hsource, hcut, harguments, keyword_ofText_name hk, upper_name]

/-- A known keyword and trimmed arguments on one line are one instruction. -/
theorem instructions_line (hk : k ≠ .unknown) (htrimmed : Text.IsTrimmed a) (hne : a ≠ [])
    (hfeed : '\n' ∉ a) (hescape : a.getLast? ≠ some defaultEscape) :
    instructions (k.name ++ ' ' :: a) =
      [{ keyword := k, name := k.name, arguments := a, line := 1, source := k.name ++ ' ' :: a }] := by
  have hlogical : LogicalLine.IsLogical (k.name ++ ' ' :: a) := isLogical_line htrimmed hne hfeed
  have hlines : Text.lines (k.name ++ ' ' :: a) = [k.name ++ ' ' :: a] := by
    rw [Text.lines, Text.splitAt_of_notMem hlogical.noFeed, Text.terminated, if_neg hlogical.ne_nil]
  have hnone : directive? (k.name ++ ' ' :: a) = none := by
    obtain ⟨c, rest, hname, hcomment⟩ := exists_name_eq_cons k
    rw [directive?_eq_none_iff]
    rintro ⟨key, value, hline, -⟩
    rw [hlogical.trimmed.trim_eq, hname] at hline
    exact hcomment (List.cons.inj hline).1
  have hescapeOf : escapeOf (k.name ++ ' ' :: a) = defaultEscape := by
    rw [escapeOf, hlines, escapeOfLines, hnone]
  have hmarked : LogicalLine.isMarked defaultEscape (k.name ++ ' ' :: a) = false := by
    rw [LogicalLine.isMarked_of_isTrimmed hlogical.trimmed, List.getLast?_append_of_ne_nil _ (by simp),
      ← List.singleton_append, List.getLast?_append_of_ne_nil _ hne]
    exact decide_eq_false hescape
  have htext : LogicalLine.ofText defaultEscape (k.name ++ ' ' :: a) = [⟨1, k.name ++ ' ' :: a⟩] := by
    rw [LogicalLine.ofText, hlines, List.zipIdx_singleton, LogicalLine.gather_cons_of_kept hlogical.isKept,
      hmarked, LogicalLine.content_of_not_marked hmarked, hlogical.trimmed.trim_eq]
    simp [LogicalLine.grow, LogicalLine.kept, LogicalLine.gather]
  rw [instructions, hescapeOf, htext, List.map_singleton, instruction_ofLine hk htrimmed hne hfeed]

/-! ## Lines of commands -/

/-- How a line comes to run in the working directory of a state. -/
inductive Placed (s : State) (line : Text) : Text → Prop
  | here (h : s.workdir = none) : Placed s line line
  | inside (dir : Word) (h : s.workdir = some dir) :
    Placed s line ("cd ".toList ++ dir.toShell ++ " && ".toList ++ line)

/-- The lines by which `RUN` may run a command line in a state: the script's own shell reads it, perhaps in
parentheses, or it is one operand of `su`, whose shell reads it. -/
inductive Runs (s : State) (command : Text) : Text → Prop
  | own {line : Text} (h : s.user = none) (hplaced : Placed s command line) : Runs s command line
  | scoped {line : Text} (h : s.user = none) (hplaced : Placed s command line) :
    Runs s command ('(' :: line ++ [')'])
  | asUser {line : Text} (user : Word) (quoted : Text) (h : s.user = some user)
    (hquoted : ∀ (m : Posix.Machine) (ρ : Vars), Posix.fieldsOf? m ρ quoted = some [command])
    (hplaced : Placed s ("su -s /bin/sh ".toList ++ user.toShell ++ " -c ".toList ++ quoted) line) :
    Runs s command line

/-- The lines that an instruction with a command has for a command line. -/
inductive ShowsCommand (s : State) (command : Text) : Keyword → Text → Prop
  | run {line : Text} (h : Runs s command line) : ShowsCommand s command .run line
  | cmd : ShowsCommand s command .cmd ("# CMD (run manually): ".toList ++ command)
  | entrypoint : ShowsCommand s command .entrypoint ("# ENTRYPOINT (run manually): ".toList ++ command)

theorem placed_inWorkdir (s : State) (line : Text) : Placed s line (s.inWorkdir line) := by
  unfold State.inWorkdir
  split
  · next h => exact .here h
  · next dir h =>
    have hchain : chain ["cd ".toList ++ dir.toShell, line] =
        "cd ".toList ++ dir.toShell ++ " && ".toList ++ line := by
      rw [chain, Text.join_cons (by simp)]
      rfl
    rw [hchain]
    exact .inside dir h

theorem runs_runLine (s : State) (command : Text) : Runs s command (s.runLine command) := by
  have hplaced := placed_inWorkdir s (s.asUser command)
  unfold State.runLine
  unfold State.asUser at hplaced ⊢
  cases huser : s.user with
  | none =>
    rw [huser] at hplaced
    simp only [Option.isNone_none, Bool.true_and]
    split
    · exact .scoped huser hplaced
    · exact .own huser hplaced
  | some user =>
    rw [huser] at hplaced
    exact .asUser user _ huser (fun m ρ => Posix.fieldsOf?_quote m ρ command) hplaced

/-- Every command that is not empty has one line. -/
theorem exists_line_of_command {i : Instruction} (hkeyword : i.keyword ∈ [.run, .cmd, .entrypoint])
    (hempty : (Command.ofText i.arguments).isEmpty = false) (s : State) (o : Options)
    (files : FileView) :
    ∃ line, s.compile o files i = some (.ofLine line s) ∧
      ShowsCommand s (Command.ofText i.arguments).commandLine i.keyword line := by
  unfold State.compile
  generalize i.keyword = keyword at hkeyword ⊢
  cases keyword with
  | run =>
    refine ⟨_, ?_, .run (runs_runLine s _)⟩
    simp only [State.compileRun, hempty, Bool.false_eq_true, if_false]
  | cmd =>
    refine ⟨_, ?_, .cmd⟩
    simp only [State.compileStart, hempty, Bool.false_eq_true, if_false]
    rfl
  | entrypoint =>
    refine ⟨_, ?_, .entrypoint⟩
    simp only [State.compileStart, hempty, Bool.false_eq_true, if_false]
    rfl
  | _ => simp at hkeyword

theorem Command.isEmpty_eq_false {c : Command} (h : c.commandLine ≠ []) : c.isEmpty = false := by
  cases c with
  | exec words =>
    cases words with
    | nil => exact absurd rfl h
    | cons w rest => rfl
  | shell line => exact List.isEmpty_eq_false_iff.2 h

/-- An argument that is no array is a command line, with its needless blanks taken out. -/
theorem Command.eq_normalizeBlanks {raw line : Text} (h : ofText raw = .shell line) :
    line = normalizeBlanks raw := by
  unfold ofText at h
  split at h
  · cases h
  · exact (shell.inj h).symm

/-- The command line of `RUN` is the one line of its step, as the script runs it. -/
theorem lines_runLine {s : State} {o : Options} {files : FileView} {i : Instruction}
    (hkeyword : i.keyword = .run) (h : (Command.ofText i.arguments).commandLine ≠ []) :
    (Step.ofInstruction o files s i).lines = some [s.runLine (Command.ofText i.arguments).commandLine] := by
  have hempty := Command.isEmpty_eq_false h
  have hcompile : s.compile o files i =
      some (.ofLine (s.runLine (Command.ofText i.arguments).commandLine) s) := by
    rw [State.compile, hkeyword]
    simp only [State.compileRun, hempty]
    rfl
  rw [Step.ofInstruction, hcompile]
  rfl

/-! ## Arrays -/

theorem command_ofText_array (args : List Text) :
    Command.ofText (Json.array args) = .exec args := by
  rw [Command.ofText, execItems?, (Json.isTrimmed_array args).trim_eq, Json.strings?_array]

/-- An instruction with an array is read as the words of the array, and has one line in every state: the
same text for all three keywords, which a shell splits into exactly these words. They are a command and its
arguments if and only if the first word is not taken for one that is reserved or for an assignment, which
happens only to one that is written without quotes. -/
theorem compile_array {args : List Text} (hargs : args ≠ []) :
    (∀ k ∈ [Keyword.run, .cmd, .entrypoint], ∃ i : Instruction,
      instructions (k.name ++ ' ' :: Json.array args) = [i] ∧ i.keyword = k ∧
      i.arguments = Json.array args ∧ Command.ofText i.arguments = .exec args ∧
      ∀ (s : State) (o : Options) (files : FileView), ∃ line,
        s.compile o files i = some (.ofLine line s) ∧ ShowsCommand s (Shell.joinWords args) k line) ∧
    ∀ (m : Posix.Machine) (ρ : Vars),
      Posix.fieldsOf? m ρ (Shell.joinWords args) = some args ∧
      (Posix.argumentsOf? m ρ (Shell.joinWords args) = some args ↔
        ∀ arg ∈ args.head?, Posix.showsReserved arg = false ∧ Posix.showsAssignment arg = false) := by
  refine ⟨?_, fun m ρ => ⟨Posix.fieldsOf?_joinWords m ρ args,
    Posix.argumentsOf?_joinWords_eq_some_iff m ρ args⟩⟩
  intro k hk
  have hknown : k ≠ .unknown := by
    rintro rfl
    simp at hk
  have hlast : (Json.array args).getLast? = some ']' := by rw [Json.array, List.getLast?_concat]
  have hinstructions := instructions_line hknown (Json.isTrimmed_array args) (List.cons_ne_nil _ _)
    (Json.feed_notMem_array args) (by rw [hlast]; decide)
  refine ⟨_, hinstructions, rfl, rfl, command_ofText_array args, fun s o files => ?_⟩
  have hempty : (Command.exec args).isEmpty = false := by simpa [Command.isEmpty] using hargs
  have hcommand := command_ofText_array args
  obtain ⟨line, hcompile, hline⟩ := exists_line_of_command (i := ⟨k, k.name, Json.array args, 1, _⟩) hk
    (by rw [hcommand, hempty]) s o files
  rw [hcommand] at hline
  exact ⟨line, hcompile, hline⟩

/-- Words with quotes, an operator, an expansion, a line feed and a backslash, and an empty one. -/
theorem compile_array_words :
    (∃ i : Instruction,
      instructions "RUN [\"sh\",\"it's; $x\\n\",\"\",\"\\\\\"]".toList = [i] ∧
      Command.ofText i.arguments = .exec ["sh".toList, "it's; $x\n".toList, [], ['\\']]) ∧
    ∀ (m : Posix.Machine) (ρ : Vars),
      Posix.argumentsOf? m ρ "sh 'it'\"'\"'s; $x\n' '' '\\'".toList =
        some ["sh".toList, "it's; $x\n".toList, [], ['\\']] := by
  have hargs : ["sh".toList, "it's; $x\n".toList, [], ['\\']] ≠ [] := List.cons_ne_nil _ _
  obtain ⟨hread, hfields⟩ := compile_array hargs
  obtain ⟨i, hi, -, -, hexec, -⟩ := hread .run (by decide)
  refine ⟨⟨i, hi, hexec⟩, fun m ρ => (hfields m ρ).2.2 ?_⟩
  decide

/-- Words that are kept as fields but are no command: the shell assigns a variable, and reads the start of a
conditional. -/
theorem compile_array_assignment :
    ((compile {} (fun _ => none) "RUN [\"A=1\"]".toList).statements = ["(A=1)".toList] ∧
      ∀ (m : Posix.Machine) (ρ : Vars), Posix.argumentsOf? m ρ "A=1".toList = some []) ∧
    (compile {} (fun _ => none) "RUN [\"if\",\"x\"]".toList).statements = ["if x".toList] ∧
      ∀ (m : Posix.Machine) (ρ : Vars), Posix.argumentsOf? m ρ "if x".toList = none := by
  refine ⟨⟨by decide +kernel, ?_⟩, by decide +kernel, ?_⟩
  · intro m ρ
    exact Posix.argumentsOf?_joinWords m ρ ["A=1".toList]
  · intro m ρ
    exact Posix.argumentsOf?_joinWords m ρ ["if".toList, "x".toList]

end BuildScript
