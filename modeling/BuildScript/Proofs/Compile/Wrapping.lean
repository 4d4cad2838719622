import BuildScript.Proofs.Compile.Exec
import BuildScript.Proofs.Compile.Reachable
import BuildScript.Proofs.Posix.Complete

/-!
# Command lines in the script

`RUN` puts a command line behind the change of directory, into parentheses, or into an operand of `su`
(`Wrapped`). If the command line has complete commands, so has the line of the script, but for one that ends in
a comment and is put into parentheses: the parenthesis that should close is part of the comment
(`State.Reachable.isComplete_run_iff`).
-/

namespace BuildScript

open Posix (Reader Statement Token Leads tokens isComplete completes)
open Posix.Command (fixed)

/-! ## What is read of a line -/

def enterCommand (dir : Word) : Posix.Command := fixed ["cd"] ++ [.word dir]

/-- The command that enters the working directory, if there is one. -/
def State.entering (s : State) : Statement := (s.workdir.map enterCommand).toList

/-- The command that runs a command line as another user. -/
def suCommand (user : Word) (line : Text) : Posix.Command :=
  fixed ["su", "-s", "/bin/sh"] ++ (.word user :: (fixed ["-c"] ++ [.word (.literal line)]))

/-- What a shell reads of the line by which `RUN` runs a command line in a state, if it reads `ts` of the
command line itself. -/
inductive Wrapped (s : State) (line : Text) (ts : List Token) : List Token → Prop
  | own {before : List Token} (huser : s.user = none) (hchanges : Shell.changesState line = false)
    (hbefore : Leads before) : Wrapped s line ts (before ++ ts)
  | isolated {before : List Token} (huser : s.user = none) (hchanges : Shell.changesState line = true)
    (hcomment : (Reader.start.run line).pending ≠ .comment) (hbefore : Leads before) :
    Wrapped s line ts (.op ['('] :: (before ++ ts) ++ [.op [')']])
  /-- The parenthesis that should close is part of a comment. -/
  | swallowed {before : List Token} (huser : s.user = none) (hchanges : Shell.changesState line = true)
    (hcomment : (Reader.start.run line).pending = .comment) (hbefore : Leads before) :
    Wrapped s line ts (.op ['('] :: (before ++ ts))
  | asUser {user : Word} {us : List Token} (huser : s.user = some user)
    (hread : Statement.IsRead (s.entering ++ [suCommand user line]) us) : Wrapped s line ts us

theorem isNamed_enterCommand {dir : Word} (h : dir.named = true) : (enterCommand dir).IsNamed :=
  isNamed_fixed_append rfl (List.forall_mem_singleton.2 h)

/-- A command line in the working directory is read as by itself, behind the change of directory. -/
theorem exists_run_placed {s : State} (hs : s.Named) {line placed : Text} (hplaced : Placed s line placed)
    {ns : List Posix.Mark} (hns : (Reader.start.addAll ns).atWordStart = true) :
    ∃ lead, (Reader.start.addAll ns).run placed = (Reader.start.run line).shift (ns ++ lead) ∧
      (Reader.start.addAll (ns ++ lead)).atWordStart = true ∧
      ∃ before, Leads before ∧ ∀ ms, tokens (lead ++ ms) = before ++ tokens ms := by
  cases hplaced with
  | here hworkdir =>
    refine ⟨[], ?_, ?_, [], ?_, fun ms => rfl⟩
    · rw [Reader.start_addAll, Reader.run_shift _ hns, List.append_nil]
    · rwa [List.append_nil]
    · intro t ht
      cases ht
  | inside dir hworkdir =>
    have hnamed := isNamed_enterCommand (hs.workdir dir hworkdir)
    have htext : "cd ".toList ++ dir.toShell = (enterCommand dir).text := rfl
    obtain ⟨mss, hmss, hne, hwords, -⟩ := Posix.Command.run_text hnamed (Reader.isBare_start.addAll ns)
    have hbare := (Reader.isBare_start.addAll ns).addAll (Posix.spaced mss)
    have hbegin : (Reader.start.addAll ns).run ((enterCommand dir).text ++ " && ".toList) =
        Reader.start.addAll (ns ++ (Posix.spaced mss ++ Reader.between)) := by
      rw [Reader.run_append, hmss, hbare.run_and, Reader.addAll_addAll, Reader.addAll_addAll]
    have hstart : (Reader.start.addAll (ns ++ (Posix.spaced mss ++ Reader.between))).atWordStart = true := by
      have hlast : (Reader.start.addAll (ns ++ (Posix.spaced mss ++ Reader.between))).marks =
          (ns ++ Posix.spaced mss ++ [.blank, .op '&', .op '&']) ++ [.blank] := by
        simp [Reader.addAll, Reader.start, Reader.between]
      rw [Reader.atWordStart, hlast, List.getLast?_concat]
    refine ⟨_, ?_, hstart, mss.map .word ++ [.op "&&".toList], ?_, ?_⟩
    · rw [htext, Reader.run_append, hbegin, Reader.start_addAll, Reader.run_shift _ hstart]
    · exact Posix.leads_append_and (List.forall_mem_map.2 fun _ _ => rfl)
    · intro ms
      have hchain : Posix.spaced mss ++ Reader.between ++ ms =
          Posix.spaced mss ++ .blank :: .op '&' :: .op '&' :: .blank :: ms := by
        simp [Reader.between]
      rw [hchain, Posix.tokens_spaced_blank hwords hne, Posix.tokens_and, List.append_assoc]
      rfl

/-! ## The line of a command line -/

theorem State.Named.entering {s : State} (hs : s.Named) : ∀ c ∈ s.entering, c.IsNamed := by
  intro c hc
  obtain ⟨dir, hdir, rfl⟩ := Option.map_eq_some_iff.1 (Option.mem_toList.1 hc)
  exact isNamed_enterCommand (hs.workdir dir hdir)

theorem isNamed_suCommand {user : Word} (h : user.named = true) (line : Text) :
    (suCommand user line).IsNamed := by
  have hrun : Posix.Command.IsNamed (fixed ["-c"] ++ [.word (.literal line)]) :=
    isNamed_fixed_append rfl (List.forall_mem_singleton.2 (Word.named_literal line))
  exact isNamed_fixed_append rfl (List.forall_mem_cons.2 ⟨h, hrun.2⟩)

theorem text_suCommand (user : Word) (line : Text) :
    Posix.Command.text (suCommand user line) =
      "su -s /bin/sh ".toList ++ user.toShell ++ " -c ".toList ++ Shell.quote line := by
  simp [Posix.Command.text, suCommand, fixed, Text.join, toShell_literal]

theorem text_entering (s : State) (c : Posix.Command) :
    Statement.text (s.entering ++ [c]) = s.inWorkdir c.text := by
  unfold State.entering State.inWorkdir
  cases s.workdir <;> rfl

section Lines

variable {escape : Char} {s : State} {line : Text} {ts : List Token}

theorem exists_wrapped_asUser (hs : s.WellFormed escape) {user : Word} (huser : s.user = some user) :
    ∃ us, Posix.read (s.runLine line) = some us ∧ Wrapped s line ts us := by
  have htext : s.runLine line = Statement.text (s.entering ++ [suCommand user line]) := by
    rw [text_entering, text_suCommand, State.runLine, State.asUser, huser]
    rfl
  have hnamed : Statement.IsNamed (s.entering ++ [suCommand user line]) := by
    refine ⟨by simp, ?_⟩
    intro c hc
    rcases List.mem_append.1 hc with hc | hc
    · exact hs.toNamed.entering c hc
    · rw [List.mem_singleton.1 hc]
      exact isNamed_suCommand (hs.user user huser).2 line
  obtain ⟨us, hus, hreads⟩ := Statement.read_text hnamed
  exact ⟨us, htext ▸ hus, .asUser huser hreads⟩

theorem exists_wrapped_own (hs : s.Named) (hread : Posix.read line = some ts) (huser : s.user = none)
    (hchanges : Shell.changesState line = false) :
    ∃ us, Posix.read (s.runLine line) = some us ∧ Wrapped s line ts us := by
  obtain ⟨ms, hms, rfl⟩ := Option.map_eq_some_iff.1 hread
  have hstart : (Reader.start.addAll []).atWordStart = true := rfl
  obtain ⟨lead, hlead, -, before, hbefore, htokens⟩ :=
    exists_run_placed hs (placed_inWorkdir s line) hstart
  have hrun : s.runLine line = s.inWorkdir line := by
    rw [State.runLine, State.asUser, huser, hchanges]
    rfl
  refine ⟨before ++ tokens ms, ?_, .own huser hchanges hbefore⟩
  rw [hrun, ← htokens]
  exact Posix.read_of_run_shift hlead hms

theorem exists_wrapped_isolated (hs : s.Named) (hread : Posix.read line = some ts) (huser : s.user = none)
    (hchanges : Shell.changesState line = true) :
    ∃ us, Posix.read (s.runLine line) = some us ∧ Wrapped s line ts us := by
  obtain ⟨ms, hms, rfl⟩ := Option.map_eq_some_iff.1 hread
  have hstart : (Reader.start.addAll [.op '(']).atWordStart = true := rfl
  obtain ⟨lead, hlead, hns, before, hbefore, htokens⟩ :=
    exists_run_placed hs (placed_inWorkdir s line) hstart
  rw [List.singleton_append] at hlead hns
  have hopen : Reader.start.run (s.runLine line) =
      ((Reader.start.run line).shift (.op '(' :: lead)).step ')' := by
    have hrun : s.runLine line = '(' :: (s.inWorkdir line ++ [')']) := by
      rw [State.runLine, State.asUser, huser, hchanges]
      rfl
    have hfirst : Reader.start.step '(' = Reader.start.addAll [.op '('] := rfl
    rw [hrun, Reader.run_cons, hfirst, Reader.run_append, hlead]
    rfl
  have hparenthesis : ∀ ns, tokens (.op '(' :: ns) = .op ['('] :: tokens ns := fun ns =>
    Posix.tokens_append_op Posix.standsApart_open []
  by_cases hcomment : (Reader.start.run line).pending = .comment
  · -- The comment goes on to the end of the line.
    have hstays : Reader.start.run (s.runLine line) = (Reader.start.run line).shift (.op '(' :: lead) := by
      rw [hopen, Reader.step, Reader.shift_pending, hcomment]
      rfl
    refine ⟨_, ?_, .swallowed huser hchanges hcomment hbefore⟩
    rw [← htokens, ← hparenthesis]
    exact Posix.read_of_run_shift hstays hms
  · have hcloser := (Posix.Reader.grounded_start.run line).closer_of_marks? hms
    have hclose := Reader.shift_parenthesis hms hcloser hcomment hns
    rw [← hopen] at hclose
    have hinside : tokens (.op '(' :: lead ++ ms ++ [.op ')']) =
        .op ['('] :: (before ++ tokens ms) ++ [.op [')']] := by
      rw [Posix.tokens_append_op Posix.standsApart_close, List.cons_append, hparenthesis, htokens]
      rfl
    refine ⟨_, ?_, .isolated huser hchanges hcomment hbefore⟩
    rw [← hinside]
    exact Posix.read_of_run hclose

/-- The line that runs a command line is read as the command line, with what is put around it. -/
theorem exists_wrapped (hs : s.WellFormed escape) (hread : Posix.read line = some ts) :
    ∃ us, Posix.read (s.runLine line) = some us ∧ Wrapped s line ts us := by
  cases huser : s.user with
  | some user => exact exists_wrapped_asUser hs huser
  | none =>
    cases hchanges : Shell.changesState line with
    | true => exact exists_wrapped_isolated hs.toNamed hread huser hchanges
    | false => exact exists_wrapped_own hs.toNamed hread huser hchanges

/-! ## Complete lines -/

namespace Wrapped

variable {us : List Token}

theorem ne_nil_of_mem (s : State) (user : Word) (line : Text) :
    ∀ c ∈ s.entering ++ [suCommand user line], c ≠ [] := by
  intro c hc
  rcases List.mem_append.1 hc with hc | hc
  · obtain ⟨dir, -, rfl⟩ := Option.map_eq_some_iff.1 (Option.mem_toList.1 hc)
    exact List.cons_ne_nil _ _
  · rw [List.mem_singleton.1 hc]
    exact List.cons_ne_nil _ _

/-- Only in a comment the parenthesis that should close is not read. -/
theorem completes_iff (h : Wrapped s line ts us) (hts : completes ts = true) :
    completes us = true ↔ ¬(s.user = none ∧ Shell.changesState line = true ∧
      (Reader.start.run line).pending = .comment) := by
  cases h with
  | own huser hchanges hbefore =>
    refine iff_of_true (Posix.completes_behind hbefore hts) ?_
    rintro ⟨-, hchanged, -⟩
    rw [hchanges] at hchanged
    cases hchanged
  | isolated huser hchanges hcomment hbefore =>
    refine iff_of_true (Posix.completes_parentheses (Posix.completes_behind hbefore hts)) ?_
    rintro ⟨-, -, hends⟩
    exact hcomment hends
  | swallowed huser hchanges hcomment hbefore =>
    refine iff_of_false ?_ (not_not_intro ⟨huser, hchanges, hcomment⟩)
    rw [Posix.not_completes_open (Posix.completes_behind hbefore hts)]
    exact Bool.false_ne_true
  | asUser huser hread =>
    refine iff_of_true (hread.completes (ne_nil_of_mem s _ line)) ?_
    rintro ⟨hnone, -, -⟩
    rw [huser] at hnone
    cases hnone

/-- What is put around a command line has no operator of its own but parentheses and that of a chain. -/
theorem op_mem (h : Wrapped s line ts us) {t : Text} (ht : t ∉ [['('], [')'], "&&".toList])
    (hmem : .op t ∈ us) : .op t ∈ ts := by
  simp only [List.mem_cons, List.not_mem_nil, or_false, not_or] at ht
  obtain ⟨hopen, hclose, hand⟩ := ht
  have hleads : ∀ {before : List Token}, Leads before → .op t ∉ before := by
    intro before hbefore hmem
    rcases hbefore _ hmem with hword | heq
    · cases hword
    · exact hand (Token.op.inj heq)
  cases h with
  | own _ _ hbefore => exact (List.mem_append.1 hmem).resolve_left (hleads hbefore)
  | isolated _ _ _ hbefore =>
    simp only [List.cons_append, List.mem_cons, List.mem_append, List.not_mem_nil, or_false,
      Token.op.injEq, hopen, hclose, false_or] at hmem
    exact hmem.resolve_left (hleads hbefore)
  | swallowed _ _ _ hbefore =>
    simp only [List.mem_cons, List.mem_append, Token.op.injEq, hopen, false_or] at hmem
    exact hmem.resolve_left (hleads hbefore)
  | asUser _ hread => exact absurd hmem (hleads hread.leads)

end Wrapped

end Lines

theorem ne_nil_of_isComplete {line : Text} (h : isComplete line = true) : line ≠ [] := by
  rintro rfl
  cases h

theorem lines_run {s : State} {o : Options} {files : FileView} {i : Instruction} {line : Text}
    (hkeyword : i.keyword = .run) (hline : Command.ofText i.arguments = .shell line) (hne : line ≠ []) :
    (Step.ofInstruction o files s i).lines = some [s.runLine line] := by
  have hlines : (Step.ofInstruction o files s i).lines =
      some [s.runLine (Command.ofText i.arguments).commandLine] := by
    apply lines_runLine hkeyword
    rwa [hline]
  rwa [hline] at hlines

/-- A command line of `RUN` that is complete by itself has one line in the script, in every state that
instructions lead to. A shell reads that line as the command line with what is put around it (`Wrapped`), the
same whatever stands on the lines behind it, and no here-document begins there but those of the command line.
The line is complete, too, unless it is in parentheses and the command line ends in a comment. -/
theorem State.Reachable.isComplete_run_iff {escape : Char} {s : State} (hs : s.Reachable escape) (o : Options)
    (files : FileView) {i : Instruction} (hkeyword : i.keyword = .run) {line : Text}
    (hline : Command.ofText i.arguments = .shell line) (hcomplete : isComplete line = true) :
    ∃ out ts us, (Step.ofInstruction o files s i).lines = some [out] ∧
      Posix.read line = some ts ∧ Posix.read out = some us ∧ Wrapped s line ts us ∧
      (isComplete out = true ↔ ¬(s.user = none ∧ Shell.changesState line = true ∧
        (Reader.start.run line).pending = .comment)) ∧
      (∀ next, Posix.read (out ++ '\n' :: next) = (Posix.read next).map (us ++ .op ['\n'] :: ·)) ∧
      (.op "<<".toList ∈ us → .op "<<".toList ∈ ts) := by
  obtain ⟨ts, hread, hts⟩ := (Option.any_eq_true _ _).1 hcomplete
  obtain ⟨us, hus, hwrapped⟩ := exists_wrapped hs.wellFormed hread
  refine ⟨s.runLine line, ts, us, lines_run hkeyword hline (ne_nil_of_isComplete hcomplete), hread, hus,
    hwrapped, ?_, Posix.read_append_feed hus, hwrapped.op_mem (by decide)⟩
  rw [Posix.isComplete_iff hus]
  exact hwrapped.completes_iff hts

/-- A command line with quotes and an operator behind a change of directory, in a directory of its own. -/
theorem isComplete_run_isolated :
    let s := (Step.ofInstruction {} (fun _ => none) (.initial '\\')
      ⟨.workdir, [], "/srv".toList, 1, []⟩).state
    let line := "cd /tmp && ls \"it's # no comment\" &".toList
    isComplete line = true ∧ ∃ us,
      (Step.ofInstruction {} (fun _ => none) s ⟨.run, [], line, 2, []⟩).lines =
        some ["(cd /srv && cd /tmp && ls \"it's # no comment\" &)".toList] ∧
      Posix.read "(cd /srv && cd /tmp && ls \"it's # no comment\" &)".toList = some us ∧
      isComplete "(cd /srv && cd /tmp && ls \"it's # no comment\" &)".toList = true := by
  intro s line
  have hs : s.Reachable '\\' := .step .initial {} (fun _ => none) ⟨.workdir, [], "/srv".toList, 1, []⟩
  have hcomplete : isComplete line = true := by decide +kernel
  have hpending : (Reader.start.run line).pending ≠ .comment := by decide +kernel
  have hline : Command.ofText line = .shell line := by decide +kernel
  have hlines : (Step.ofInstruction {} (fun _ => none) s ⟨.run, [], line, 2, []⟩).lines =
      some ["(cd /srv && cd /tmp && ls \"it's # no comment\" &)".toList] := by
    decide +kernel
  obtain ⟨out, ts, us, hout, -, hus, -, hiff, -⟩ :=
    State.Reachable.isComplete_run_iff hs {} (fun _ => none) (i := ⟨.run, [], line, 2, []⟩) rfl hline hcomplete
  rw [hlines] at hout
  cases hout
  exact ⟨hcomplete, us, hlines, hus, hiff.2 fun h => hpending h.2.2⟩

/-- The parenthesis that should close is part of a comment. -/
theorem not_isComplete_comment :
    isComplete "cd /tmp # x".toList = true ∧
      (compile {} (fun _ => none) "RUN cd /tmp # x".toList).statements = ["(cd /tmp # x)".toList] ∧
      isComplete "(cd /tmp # x)".toList = false := by
  decide +kernel

end BuildScript

