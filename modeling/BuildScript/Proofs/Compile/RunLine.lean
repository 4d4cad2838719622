import BuildScript.Proofs.Compile.Clean
import BuildScript.Proofs.Compile.Exec
import BuildScript.Proofs.Compile.Skeleton
import BuildScript.Proofs.Shell.Blanks

/-!
# How the line of `RUN` is scanned

`RUN` decides by the tokens of a command line whether it is kept to itself (`State.isolates`). A list of
commands is kept to itself if one of its commands would be on its own (`isolates_commandList`), and what
normalizing does to the blanks of a line changes nothing (`isolates_normalizeBlanks`). Under another user the
line of the script has a fixed form, and the command line is one word of it, whatever stands in it
(`tokens_run_asUser`).
-/

namespace BuildScript

namespace Shell

/-! ## Lists of commands -/

/-- Whether a text separates commands: it has operators, and perhaps blanks. -/
def isSeparator (sep : Text) : Bool := sep.any isOperator && sep.all isBreak

/-- Commands in a row, each but the first behind a separator. -/
def commandList (first : Text) : List (Text × Text) → Text
  | [] => first
  | (sep, next) :: rest => first ++ sep ++ commandList next rest

variable {a sep : Text} {c : Char}

theorem changesState_cons_break (hc : isBreak c = true) (b : Text) :
    changesState (c :: b) = changesState b := by
  rcases isBreak_cases hc with hoperator | ⟨hblank, hfeed⟩
  · rw [changesState, tokens_cons_op hoperator]
    rfl
  · rw [changesState, tokens_cons_blank hblank hfeed]
    rfl

theorem changesState_breaks_append (hsep : sep.all isBreak = true) (b : Text) :
    changesState (sep ++ b) = changesState b := by
  induction sep with
  | nil => rfl
  | cons c rest ih =>
    rw [List.all_cons, Bool.and_eq_true] at hsep
    rw [List.cons_append, changesState_cons_break hsep.1, ih hsep.2]

theorem EndsBare.changesState_append_op (ha : EndsBare a) (hc : isOperator c = true) (b : Text) :
    changesState (a ++ c :: b) = (changesState a || changesState b) := by
  rw [changesState, ha.tokens_append_op hc, changesStateFrom_append_op]
  rfl

/-- What separators stand between is searched apart. -/
theorem EndsBare.changesState_append (ha : EndsBare a) (hsep : isSeparator sep = true) (b : Text) :
    changesState (a ++ sep ++ b) = (changesState a || changesState b) := by
  rw [isSeparator, Bool.and_eq_true] at hsep
  obtain ⟨hany, hall⟩ := hsep
  induction sep generalizing a with
  | nil => cases hany
  | cons c rest ih =>
    rw [List.all_cons, Bool.and_eq_true] at hall
    rcases isBreak_cases hall.1 with hoperator | ⟨hblank, hfeed⟩
    · rw [List.append_assoc, List.cons_append, ha.changesState_append_op hoperator,
        changesState_breaks_append hall.2]
    · -- A blank before the first operator is counted with the command.
      have hbare : isOperator c = false := by
        rw [Bool.eq_false_iff]
        intro hoperator
        have hmark := ofBare_of_isBlank hblank hfeed
        rw [Mark.ofBare, if_pos hoperator] at hmark
        cases hmark
      have htokens : tokens (a ++ [c]) = tokens a := by
        rw [ha.tokens_append hall.1, tokens_cons_blank hblank hfeed]
        exact List.append_nil _
      have hrest : rest.any isOperator = true := by rwa [List.any_cons, hbare, Bool.false_or] at hany
      have hchanges : changesState (a ++ [c]) = changesState a := by rw [changesState, htokens]; rfl
      rw [← List.singleton_append, ← List.append_assoc a,
        ih (ha.append (endsBare_break hall.1)) hrest hall.2, hchanges]

/-- A list of commands is searched command by command. -/
theorem changesState_commandList {first : Text} {rest : List (Text × Text)}
    (hcommands : ∀ t ∈ (first :: rest.map Prod.snd).dropLast, EndsBare t)
    (hseps : ∀ p ∈ rest, isSeparator p.1 = true) :
    changesState (commandList first rest) = (first :: rest.map Prod.snd).any changesState := by
  induction rest generalizing first with
  | nil => simp [commandList]
  | cons p rest ih =>
    obtain ⟨sep, next⟩ := p
    rw [List.map_cons, List.dropLast_cons_cons] at hcommands
    obtain ⟨hfirst, hothers⟩ := List.forall_mem_cons.1 hcommands
    obtain ⟨hsep, hrest⟩ := List.forall_mem_cons.1 hseps
    rw [commandList, hfirst.changesState_append hsep, ih hothers hrest, List.map_cons]
    simp

end Shell

open Shell (EndsBare Mode changesState commandList isOperator isSeparator joinWords tokens)

namespace State

variable {s : State} {line : Text}

/-- Whether `RUN` keeps a command line to itself: the line that runs it is put into parentheses. -/
def isolates (s : State) (line : Text) : Prop :=
  s.runLine line = '(' :: s.inWorkdir (s.asUser line) ++ [')']

theorem isolates_iff : s.isolates line ↔ s.user = none ∧ changesState line = true := by
  have hcondition : (s.user.isNone && changesState line) = true ↔
      s.user = none ∧ changesState line = true := by
    rw [Bool.and_eq_true, Option.isNone_iff_eq_none]
  rw [isolates, runLine, ← hcondition]
  split
  · next h => exact iff_of_true rfl h
  · next h =>
    refine iff_of_false ?_ h
    intro heq
    have hlength := congrArg List.length heq
    simp only [List.length_cons, List.length_append] at hlength
    omega

/-- Lines that are searched with one result are kept to themselves in the same states. -/
theorem isolates_congr {other : Text} (h : changesState line = changesState other) :
    s.isolates line ↔ s.isolates other := by
  rw [isolates_iff, isolates_iff, h]

end State

/-- Behind a text that ends outside quotes an operator cuts the tokens, and what stands behind it is searched
anew. So a list of commands, with any operators and blanks between them, is kept to itself if and only if one
of the commands would be on its own. -/
theorem isolates_commandList :
    (∀ a : Text, EndsBare a → ∀ c : Char, isOperator c = true → ∀ b : Text,
      tokens (a ++ c :: b) = tokens a ++ .op :: tokens b ∧
      changesState (a ++ c :: b) = (changesState a || changesState b)) ∧
    ∀ (first : Text) (rest : List (Text × Text)),
      (∀ t ∈ (first :: rest.map Prod.snd).dropLast, EndsBare t) →
      (∀ p ∈ rest, isSeparator p.1 = true) →
      ∀ s : State, s.isolates (commandList first rest) ↔
        ∃ t ∈ first :: rest.map Prod.snd, s.isolates t := by
  refine ⟨?_, ?_⟩
  · intro a ha c hc b
    exact ⟨ha.tokens_append_op hc b, ha.changesState_append_op hc b⟩
  · intro first rest hcommands hseps s
    rw [State.isolates_iff, Shell.changesState_commandList hcommands hseps, List.any_eq_true]
    constructor
    · rintro ⟨huser, t, ht, hchanges⟩
      exact ⟨t, ht, State.isolates_iff.2 ⟨huser, hchanges⟩⟩
    · rintro ⟨t, ht, hisolates⟩
      obtain ⟨huser, hchanges⟩ := State.isolates_iff.1 hisolates
      exact ⟨huser, t, ht, hchanges⟩

/-- An operator in quotes, one behind a backslash, and blanks around separators: only the last command acts on
the shell, and the list is kept to itself for its sake. -/
theorem isolates_commandList_cd :
    (State.initial '\\').isolates "echo 'a;b' \\; && ls |cd /srv".toList ∧
      tokens "echo ';' |cd /srv".toList = tokens "echo ';' ".toList ++ .op :: tokens "cd /srv".toList := by
  obtain ⟨hcut, hlist⟩ := isolates_commandList
  have hline : "echo 'a;b' \\; && ls |cd /srv".toList = commandList "echo 'a;b' \\;".toList
      [(" && ".toList, "ls".toList), (" |".toList, "cd /srv".toList)] := by decide
  have hlast : (State.initial '\\').isolates "cd /srv".toList := State.isolates_iff.2 ⟨rfl, by decide⟩
  refine ⟨?_, (hcut "echo ';' ".toList rfl '|' rfl "cd /srv".toList).1⟩
  rw [hline, hlist]
  · exact ⟨"cd /srv".toList, by simp, hlast⟩
  · exact List.forall_mem_cons.2 ⟨by decide, List.forall_mem_singleton.2 (by decide)⟩
  · decide

/-! ## Commands under another user -/

/-- A command line that runs as a user is one operand of `su`, and the user is another one. -/
theorem asUser_eq_join {s : State} {user : Word} (h : s.user = some user) (line : Text) :
    s.asUser line = Text.join [' '] ([.literal "su".toList, .literal "-s".toList,
      .literal "/bin/sh".toList, user, .literal "-c".toList, .literal line].map Word.toShell) := by
  have hsu : (Word.literal "su".toList).toShell = "su".toList := rfl
  have hoption : (Word.literal "-s".toList).toShell = "-s".toList := rfl
  have hshell : (Word.literal "/bin/sh".toList).toShell = "/bin/sh".toList := rfl
  have hcommand : (Word.literal "-c".toList).toShell = "-c".toList := rfl
  rw [State.asUser, h, List.map_cons, List.map_cons, List.map_cons, List.map_cons, List.map_cons,
    List.map_singleton, hsu, hoption, hshell, hcommand, toShell_literal]
  simp [Text.join]

theorem asUser_literal {s : State} {user : Text} (h : s.user = some (.literal user)) (line : Text) :
    s.asUser line = joinWords ["su".toList, "-s".toList, "/bin/sh".toList, user, "-c".toList, line] := by
  simp only [asUser_eq_join h, joinWords, List.map_cons, List.map_nil, toShell_literal]

/-- Quoted words behind other quoted words and `&&` are found with two operators between them. -/
theorem tokens_chain_joinWords (before behind : List Text) :
    tokens (chain [joinWords before, joinWords behind]) =
      before.map .word ++ [.op, .op] ++ behind.map .word := by
  have hchain : chain [joinWords before, joinWords behind] =
      joinWords before ++ ' ' :: '&' :: '&' :: ' ' :: joinWords behind := by
    rw [chain, Text.join_cons (List.cons_ne_nil _ _)]
    simp [Text.join]
  rw [hchain, (Shell.endsBare_joinWords before).tokens_append (by decide),
    Shell.tokens_cons_blank (by decide) (by decide), Shell.tokens_cons_op (by decide),
    Shell.tokens_cons_op (by decide), Shell.tokens_cons_blank (by decide) (by decide),
    Shell.tokens_joinWords, Shell.tokens_joinWords]
  simp

/-- Under another user, in a working directory or in none, the line of `RUN` is scanned as the words of a
change of directory and of `su`. The last of them is the text of the command, whatever it is, and no
parentheses are put around them. -/
theorem tokens_run_asUser (o : Options) (files : FileView) {s : State} {user : Text} {dir : Option Text}
    (huser : s.user = some (.literal user)) (hworkdir : s.workdir = dir.map .literal) {i : Instruction}
    (hkeyword : i.keyword = .run) (hcommand : (Command.ofText i.arguments).commandLine ≠ []) :
    ∃ line, (Step.ofInstruction o files s i).lines = some [line] ∧
      tokens line = (dir.elim [] fun d => [.word "cd".toList, .word d, .op, .op]) ++
        ["su".toList, "-s".toList, "/bin/sh".toList, user, "-c".toList,
          (Command.ofText i.arguments).commandLine].map .word ∧
      ∀ body, line ≠ '(' :: body ++ [')'] := by
  refine ⟨_, lines_runLine hkeyword hcommand, ?_⟩
  have hline : s.runLine (Command.ofText i.arguments).commandLine =
      s.inWorkdir (s.asUser (Command.ofText i.arguments).commandLine) := by
    rw [State.runLine, huser]
    rfl
  rw [hline, asUser_literal huser, State.inWorkdir, hworkdir]
  cases dir with
  | none =>
    refine ⟨Shell.tokens_joinWords _, fun body hbody => ?_⟩
    rw [Shell.joinWords_cons (List.cons_ne_nil _ _)] at hbody
    cases (List.cons.inj hbody).1
  | some d =>
    have hcd : "cd ".toList ++ (Word.literal d).toShell = joinWords ["cd".toList, d] := by
      rw [toShell_literal, Shell.joinWords_cons (List.cons_ne_nil _ _)]
      rfl
    refine ⟨?_, fun body hbody => ?_⟩
    · show tokens (chain ["cd ".toList ++ (Word.literal d).toShell, _]) = _
      rw [hcd, tokens_chain_joinWords]
      rfl
    · cases (List.cons.inj hbody).1

/-- Quotes and an operator in the command, blanks and a quote in the directory and the user. -/
theorem tokens_run_asUser_unbalanced :
    let s : State :=
      { State.initial '\\' with
        workdir := some (.literal "/srv/a b".toList)
        user := some (.literal "o'neil".toList) }
    ∃ line, (Step.ofInstruction {} (fun _ => none) s
        ⟨.run, [], "echo  'it; (\"  # $x".toList, 1, []⟩).lines = some [line] ∧
      tokens line = [.word "cd".toList, .word "/srv/a b".toList, .op, .op, .word "su".toList,
        .word "-s".toList, .word "/bin/sh".toList, .word "o'neil".toList, .word "-c".toList,
        .word "echo 'it; (\"  # $x".toList] := by
  intro s
  have hworkdir : s.workdir = (some "/srv/a b".toList).map .literal := rfl
  obtain ⟨line, hline, htokens, -⟩ := tokens_run_asUser {} (fun _ => none) rfl hworkdir
    (i := ⟨.run, [], "echo  'it; (\"  # $x".toList, 1, []⟩) rfl (by decide +kernel)
  have hcommand : (Command.ofText "echo  'it; (\"  # $x".toList).commandLine =
      "echo 'it; (\"  # $x".toList := by decide +kernel
  rw [hcommand] at htokens
  exact ⟨line, hline, htokens⟩

/-! ## Blanks of command lines -/

/-- Normalizing a line twice is normalizing it once. A normalized line is trimmed, its blanks that stand
outside quotes and behind no backslash are single spaces between other characters, and all other characters of
the trimmed line are there, in their order and in the same quotes. A trimmed line without line feeds keeps its
tokens, and is kept to itself as before; so does the command line of every instruction. -/
theorem isolates_normalizeBlanks :
    (∀ line : Text, normalizeBlanks (normalizeBlanks line) = normalizeBlanks line ∧
      Text.IsTrimmed (normalizeBlanks line) ∧
      Shell.HasSingleSpaces (Mode.start.sites (normalizeBlanks line)) ∧
      (Mode.start.sites (normalizeBlanks line)).filter (!·.isGap) =
        (Mode.start.sites (Text.trim line)).filter (!·.isGap) ∧
      (Text.IsTrimmed line → '\n' ∉ line → tokens (normalizeBlanks line) = tokens line ∧
        ∀ s : State, s.isolates (normalizeBlanks line) ↔ s.isolates line)) ∧
    ∀ input : Text, ∀ i ∈ instructions input, ∀ line, Command.ofText i.arguments = .shell line →
      tokens line = tokens i.arguments ∧ ∀ s : State, s.isolates line ↔ s.isolates i.arguments := by
  have hkeep : ∀ line : Text, Text.IsTrimmed line → '\n' ∉ line →
      tokens (normalizeBlanks line) = tokens line ∧
        ∀ s : State, s.isolates (normalizeBlanks line) ↔ s.isolates line := by
    intro line htrimmed hfeed
    have htokens := tokens_normalizeBlanks htrimmed hfeed
    have hchanges : changesState (normalizeBlanks line) = changesState line := by
      rw [changesState, changesState, htokens]
    exact ⟨htokens, fun s => State.isolates_congr hchanges⟩
  refine ⟨fun line => ⟨normalizeBlanks_normalizeBlanks line, isTrimmed_normalizeBlanks line,
    hasSingleSpaces_normalizeBlanks line, filter_sites_normalizeBlanks line, hkeep line⟩, ?_⟩
  intro input i hi line hline
  rw [Command.eq_normalizeBlanks hline]
  exact hkeep i.arguments (isTrimmed_arguments hi) (feed_notMem_arguments hi)

/-- Gaps before an operator and around quotes, an escaped blank, and quotes that stay open. The line acts on
the shell, before and after. -/
theorem isolates_normalizeBlanks_escaped :
    let line := "cd  'a  b' \t; \\  \"x  y".toList
    let normal := "cd 'a  b' ; \\  \"x  y".toList
    tokens normal = tokens line ∧ (State.initial '\\').isolates line ∧
      ∃ i ∈ instructions (Keyword.run.name ++ ' ' :: line),
        Command.ofText i.arguments = .shell normal ∧ (State.initial '\\').isolates normal := by
  intro line normal
  obtain ⟨hlines, hcommands⟩ := isolates_normalizeBlanks
  have hnormal : normalizeBlanks line = normal := by decide +kernel
  have htrimmed : Text.IsTrimmed line := by
    constructor
    · rintro c ⟨⟩
      decide
    · rintro c ⟨⟩
      decide
  have hfeed : '\n' ∉ line := by decide
  obtain ⟨-, -, -, -, hkeep⟩ := hlines line
  obtain ⟨htokens, -⟩ := hkeep htrimmed hfeed
  have hisolates : (State.initial '\\').isolates line := State.isolates_iff.2 ⟨rfl, by decide⟩
  have hinstructions := instructions_line (k := .run) (by decide) htrimmed (by decide) hfeed (by decide)
  have hcommand : Command.ofText line = .shell normal := by
    rw [Command.ofText, hnormal]
    rfl
  have hmem := List.mem_singleton_self
    (Instruction.mk .run Keyword.run.name line 1 (Keyword.run.name ++ ' ' :: line))
  rw [← hinstructions] at hmem
  obtain ⟨-, hiff⟩ := hcommands _ _ hmem normal hcommand
  refine ⟨?_, hisolates, _, hmem, hcommand, (hiff _).2 hisolates⟩
  rw [← hnormal, htokens]

end BuildScript
