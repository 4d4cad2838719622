import BuildScript.Proofs.Compile.Frame
import BuildScript.Proofs.Compile.RunLine
import BuildScript.Proofs.Word.Cuts

/-!
# The user of later commands

`USER` takes a specification `name:group` and cuts it where the colon is known: before the first reference
(`value_userOf_eq_iff`). The commands of `RUN` behind it, up to the next `USER`, are run by `su` as the user
that this leaves, or by the script's own shell if that is the user who runs the script
(`State.runsAs_iff`). So they are run as the name before the colon, unless there is a colon and it stands behind
a reference or comes out of one.
-/

namespace BuildScript

/-- The name in a specification `name:group` of a user. -/
def userName (spec : Text) : Text := spec.takeWhile (· ≠ ':')

/-- Whether the commands of a state are run as the user that a specification names, when variables have
certain values: the user is handed to `su`, or there is none and the name is one of the user who runs the
script. -/
def State.RunsAs (s : State) (spec : Word) (ρ : Vars) : Prop :=
  match s.user with
  | none => userName (spec.value ρ) ∈ ["root".toList, "0".toList]
  | some user => user.value ρ = userName (spec.value ρ)

/-- The states that instructions lead to from another one, if none of them is compiled that has a certain
keyword. -/
def IsBehind (o : Options) (files : FileView) (s : State) (k : Keyword) (t : State) : Prop :=
  ∃ is before after, traceFrom o files s is = before ++ after ∧
    (∀ step ∈ before, step.lines ≠ none → step.instruction.keyword ≠ k) ∧ t = stateAfter s before

/-! ## Names and groups -/

theorem userName_eq_self_iff {spec : Text} : userName spec = spec ↔ ':' ∉ spec := by
  rw [userName, List.takeWhile_eq_self_iff]
  constructor
  · intro h hmem
    simpa using h ':' hmem
  · intro h c hc
    have hne : c ≠ ':' := fun heq => h (heq ▸ hc)
    simpa using hne

theorem userName_append_cons {name : Text} (h : ':' ∉ name) (group : Text) :
    userName (name ++ ':' :: group) = name := by
  have hname : ∀ c ∈ name, decide (c ≠ ':') = true := by
    intro c hc
    have hne : c ≠ ':' := fun heq => h (heq ▸ hc)
    simpa using hne
  rw [userName, List.takeWhile_append_of_pos hname]
  simp

namespace State

/-- The user of a specification is the name in its value, unless the value has a colon that does not stand
before all references. -/
theorem value_userOf_eq_iff {spec : Word} {ρ : Vars} :
    (userOf spec).value ρ = userName (spec.value ρ) ↔ ':' ∈ spec.leading ∨ ':' ∉ spec.value ρ := by
  unfold userOf
  split
  · next name group hcut =>
    have hleading : ':' ∈ spec.leading := by
      by_contra hnone
      rw [Word.cutAt_eq_none_iff.2 hnone] at hcut
      cases hcut
    refine iff_of_true ?_ (.inl hleading)
    obtain ⟨hname, rfl⟩ := Word.cutAt_eq_some_iff.1 hcut
    rw [Word.value_append, Word.value_literal, Word.value, userName_append_cons hname]
  · next hcut =>
    rw [eq_comm, userName_eq_self_iff, or_iff_right (Word.cutAt_eq_none_iff.1 hcut)]

theorem isRoot_iff {user : Word} :
    isRoot user = true ↔ user = .literal "root".toList ∨ user = .literal "0".toList := by
  rw [isRoot, Bool.or_eq_true, beq_iff_eq, beq_iff_eq]

/-- A specification that is taken for the user who runs the script names that user. -/
theorem userName_of_isRoot {spec : Word} (h : isRoot (userOf spec) = true) (ρ : Vars) :
    (':' ∈ spec.leading ∨ ':' ∉ spec.value ρ) ∧
      userName (spec.value ρ) ∈ ["root".toList, "0".toList] := by
  have hvalue : (userOf spec).value ρ ∈ ["root".toList, "0".toList] := by
    rcases isRoot_iff.1 h with huser | huser <;> simp [huser]
  have hcolon : ':' ∈ spec.leading ∨ ':' ∉ spec.value ρ := by
    by_cases hleading : ':' ∈ spec.leading
    · exact .inl hleading
    · have huser : userOf spec = spec := by rw [userOf, Word.cutAt_eq_none_iff.2 hleading]
      refine .inr fun hmem => ?_
      rw [huser] at hvalue
      have hnone : (["root".toList, "0".toList] : List Text).all (fun t => !t.contains ':') = true := rfl
      have hfree := List.all_eq_true.1 hnone _ hvalue
      simp [hmem] at hfree
  exact ⟨hcolon, value_userOf_eq_iff.2 hcolon ▸ hvalue⟩

/-! ## What a shell is given -/

/-- Words whose modifiers have no brace are read one by one, each as one field with its value. -/
theorem exists_run_join_of_closed {ws : List Word} (h : ∀ w ∈ ws, w.named = true ∧ w.closed = true)
    {r : Posix.Reader} (hr : r.IsBare) :
    ∃ mss, r.run (Text.join [' '] (ws.map Word.toShell)) = r.addAll (Posix.spaced mss) ∧
      (∀ ms ∈ mss, Posix.IsWord ms) ∧
      ∀ (m : Posix.Machine) (ρ : Vars), Posix.allFields? m ρ mss = some (ws.map (Word.value ρ)) := by
  have hread : ∀ w ∈ ws, ∀ r : Posix.Reader, r.IsBare → ∃ ms, r.run w.toShell = r.addAll ms ∧
      Posix.IsWord ms ∧ ∀ (m : Posix.Machine) (ρ : Vars), Posix.fields? m ρ ms = some [w.value ρ] := by
    intro w hw r hr
    obtain ⟨hnamed, hclosed⟩ := h w hw
    obtain ⟨ms, hms, hsolid, hreads⟩ := Posix.Reader.run_toShell Posix.noChar hr hnamed
    exact ⟨ms, hms, Posix.isWord_of_inert hreads.inert hsolid, hreads.fields? hsolid hclosed⟩
  obtain ⟨mss, hrun, hall⟩ := Posix.Reader.run_join hread hr
  exact ⟨mss, hrun, Posix.forall_mem_of_forall₂ hall fun _ _ hw => hw.1, fun m ρ =>
    Posix.allFields?_of_forall₂ (hall.imp fun _ _ hw => hw.2 m ρ)⟩

/-- Words whose modifiers have no brace are the fields of a command, each with its value. -/
theorem fieldsOf?_join_of_closed {ws : List Word} (h : ∀ w ∈ ws, w.named = true ∧ w.closed = true)
    (m : Posix.Machine) (ρ : Vars) :
    Posix.fieldsOf? m ρ (Text.join [' '] (ws.map Word.toShell)) = some (ws.map (Word.value ρ)) := by
  obtain ⟨mss, hrun, hwords, hfields⟩ := exists_run_join_of_closed h Posix.Reader.isBare_start
  simp [Posix.fieldsOf?, Posix.read_of_run hrun, Posix.tokens_spaced hwords, Posix.words?_map_word, hfields]

variable {s : State} {user : Word}

/-- The user is one operand of `su`, and the command line is another one. -/
theorem fieldsOf?_asUser (huser : s.user = some user) (hnamed : user.named = true)
    (hclosed : user.closed = true) {command : Text} (m : Posix.Machine) (ρ : Vars) :
    Posix.fieldsOf? m ρ (s.asUser command) = some ["su".toList, "-s".toList, "/bin/sh".toList,
      user.value ρ, "-c".toList, command] := by
  rw [asUser_eq_join huser, fieldsOf?_join_of_closed]
  · simp
  · simp [hnamed, hclosed, Word.closed_literal]

/-! ## Commands behind `USER` -/

/-- After `USER`, commands run as the user that its specification names, unless the value of the specification
has a colon that does not stand before all references. -/
theorem runsAs_compileUser {raw : Text} {outcome : Outcome} (hc : s.compileUser raw = some outcome) :
    ∃ spec others, Word.lexAll s.escape raw = spec :: others ∧ ∀ t : State, t.user = outcome.state.user →
      ∀ ρ, t.RunsAs (s.expand spec) ρ ↔
        ':' ∈ (s.expand spec).leading ∨ ':' ∉ (s.expand spec).value ρ := by
  obtain ⟨spec, others, hwords, -, houtcome⟩ := compileUser_eq_some_iff.1 hc
  refine ⟨spec, others, hwords, fun t ht ρ => ?_⟩
  rw [RunsAs, ht]
  obtain ⟨hroot, rfl⟩ | ⟨-, rfl⟩ := houtcome
  · obtain ⟨hcolon, hname⟩ := userName_of_isRoot hroot ρ
    exact iff_of_true hname hcolon
  · exact value_userOf_eq_iff

/-- In every state, `USER` fixes the user of the commands behind it, up to the next `USER` that is not left out.
Each command of `RUN` there has one line. If there is no user, the script's own shell runs the command, without
`su`; else `su` is handed the user, as one operand with its value, and the command, as another one. That is the
user that the expanded specification names, before its first colon, if and only if the colon stands before
all references or the value has none. -/
theorem runsAs_iff (o : Options) (files : FileView) (s : State) {i : Instruction}
    (hkeyword : i.keyword = .user) {lines : List Text}
    (hlines : (Step.ofInstruction o files s i).lines = some lines) :
    ∃ spec others, Word.lexAll s.escape i.arguments = spec :: others ∧
      ∀ t, IsBehind o files (Step.ofInstruction o files s i).state .user t →
        (∀ ρ, t.RunsAs (s.expand spec) ρ ↔
          ':' ∈ (s.expand spec).leading ∨ ':' ∉ (s.expand spec).value ρ) ∧
        ∀ (j : Instruction) (command : Text), j.keyword = .run →
          (Command.ofText j.arguments).commandLine = command → command ≠ [] →
          ∃ line, (Step.ofInstruction o files t j).lines = some [line] ∧ Runs t command line ∧
            ∀ user ∈ t.user, Placed t (t.asUser command) line ∧
              (user.named = true → user.closed = true → ∀ (m : Posix.Machine) (ρ : Vars),
                Posix.fieldsOf? m ρ (t.asUser command) = some ["su".toList, "-s".toList, "/bin/sh".toList,
                  user.value ρ, "-c".toList, command]) := by
  obtain ⟨outcome, hcompile, -, hstate⟩ := exists_compile_of_lines hlines
  rw [State.compile, hkeyword] at hcompile
  obtain ⟨spec, others, hwords, hruns⟩ := runsAs_compileUser hcompile
  refine ⟨spec, others, hwords, ?_⟩
  rintro t ⟨is, before, after, htrace, hbefore, rfl⟩
  have hsame : State.Part.user.Same (Step.ofInstruction o files s i).state
      (stateAfter (Step.ofInstruction o files s i).state before) := same_stateAfter htrace hbefore
  have huser : (stateAfter (Step.ofInstruction o files s i).state before).user = outcome.state.user :=
    hstate ▸ hsame
  refine ⟨hruns _ huser, ?_⟩
  rintro j command hrun rfl hne
  refine ⟨_, lines_runLine hrun hne, runs_runLine _ _, fun user hmem =>
    ⟨?_, fun hnamed hclosed m ρ => fieldsOf?_asUser hmem hnamed hclosed m ρ⟩⟩
  rw [runLine, Option.mem_def.1 hmem]
  exact placed_inWorkdir _ _

/-- The name and the colon come from a recorded value, and the group from a live variable. -/
theorem runsAs_iff_recorded :
    let s := { State.initial '\\' with env := [("N".toList, .literal "app:".toList)] }
    let i : Instruction := ⟨.user, [], "\"$N$G\" x".toList, 1, []⟩
    let t := (Step.ofInstruction {} (fun _ => none) s i).state
    (Step.ofInstruction {} (fun _ => none) s i).lines =
        some ["# USER app: RUN lines execute via su -s /bin/sh app".toList] ∧
      (∀ ρ : Vars, (s.expand (.var "N".toList (.var "G".toList .nil))).value ρ =
        "app:".toList ++ ρ.text "G".toList) ∧
      (∀ ρ : Vars, t.RunsAs (s.expand (.var "N".toList (.var "G".toList .nil))) ρ) ∧
      ∀ (m : Posix.Machine) (ρ : Vars), Posix.fieldsOf? m ρ (t.asUser "id -u".toList) =
        some ["su".toList, "-s".toList, "/bin/sh".toList, "app".toList, "-c".toList, "id -u".toList] := by
  intro s i t
  have hlines : (Step.ofInstruction {} (fun _ => none) s i).lines =
      some ["# USER app: RUN lines execute via su -s /bin/sh app".toList] := by
    decide +kernel
  have hread : Word.lexAll s.escape i.arguments =
      [.var "N".toList (.var "G".toList .nil), .literal "x".toList] := by
    decide +kernel
  have hexpand : s.expand (.var "N".toList (.var "G".toList .nil)) =
      .literal "app:".toList ++ .var "G".toList .nil := by
    decide +kernel
  have huser : t.user = some (.literal "app".toList) := by decide +kernel
  have hnone : (Command.ofText "id -u".toList).commandLine = "id -u".toList := by decide +kernel
  obtain ⟨spec, others, hwords, hbehind⟩ := runsAs_iff {} (fun _ => none) s (i := i) rfl hlines
  obtain ⟨rfl, -⟩ := List.cons.inj (hread.symm.trans hwords)
  obtain ⟨hruns, hcommands⟩ := hbehind t ⟨[], [], [], rfl, by simp, rfl⟩
  refine ⟨hlines, fun ρ => ?_, fun ρ => (hruns ρ).2 (.inl ?_), fun m ρ => ?_⟩
  · rw [hexpand, Word.value_append, Word.value_literal, Word.value, Word.value, List.append_nil]
  · rw [hexpand]
    decide
  · obtain ⟨line, -, -, hsu⟩ := hcommands ⟨.run, [], "id -u".toList, 2, []⟩ _ rfl hnone (by decide)
    have hfields := (hsu _ huser).2 (Word.named_literal _) (Word.closed_literal _) m ρ
    rwa [Word.value_literal] at hfields

/-- The colon stands behind a live reference, and the group is handed to `su` as part of the name. -/
theorem not_runsAs_reference :
    (BuildScript.compile {} (fun _ => none) "USER $U:staff\nRUN id".toList).statements =
      ["# USER \"$\x7bU\x7d\":staff: RUN lines execute via su -s /bin/sh \"$\x7bU\x7d\":staff".toList,
        "su -s /bin/sh \"$\x7bU\x7d\":staff -c id".toList] ∧
    Posix.fieldsOf? (.bare []) (fun _ => some "app".toList)
        "su -s /bin/sh \"$\x7bU\x7d\":staff -c id".toList =
      some ["su".toList, "-s".toList, "/bin/sh".toList, "app:staff".toList, "-c".toList, "id".toList] ∧
    (Word.var "U".toList (.literal ":staff".toList)).value (fun _ => some "app".toList) =
      "app:staff".toList ∧
    userName "app:staff".toList = "app".toList := by
  decide +kernel

end State

end BuildScript
