import BuildScript.Proofs.Compile.Accepted
import BuildScript.Proofs.Compile.Trace
import BuildScript.Proofs.Word.Advance

/-!
# Blocks of statements

Each instruction has a block of its own in the script, in the order of the instructions, and no block is
empty (`statements_compile_blocks`). How many lines a block has is told by the words of the instruction
(`Instruction.lineCount`), unless files are written into the script, and instructions that do nothing there
leave comments only.

What an outcome is like is one statement for all instructions (`Outcome.Fits`), with one lemma for each kind.
-/

namespace BuildScript

/-! ## Words of arguments -/

namespace Word

theorem exists_scan_eq_cons {c : Char} (hc : isBlank c = false) (escape : Char) (rest : Text) :
    ∃ w marks, scan isBlank escape false (c :: rest) = .part w :: marks := by
  rw [scan_cons]
  cases hmark : (advance escape false c rest).mark with
  | part w => exact ⟨w, _, rfl⟩
  | blank =>
    rw [(advance_eq_blank hmark).2.1] at hc
    cases hc

theorem scan_cons_of_isBlank {c : Char} (hc : isBlank c = true) (escape : Char) (rest : Text) :
    scan isBlank escape false (c :: rest) = .blank :: scan isBlank escape false rest := by
  rw [scan_cons, advance_of_isBlank hc]
  rfl

/-- The words of scanned text. -/
theorem Mark.collect_ne_nil {marks : List Mark} {w : Word} (h : Mark.part w ∈ marks) :
    (Mark.collect marks).1.toList ++ (Mark.collect marks).2 ≠ [] := by
  induction marks with
  | nil => cases h
  | cons mark rest ih =>
    cases mark with
    | part v => exact List.cons_ne_nil _ _
    | blank =>
      rcases List.mem_cons.1 h with heq | hrest
      · cases heq
      · exact ih hrest

/-- A text that is not blank has words. -/
theorem lexAll_ne_nil {t : Text} {c : Char} (h : c ∈ t) (hc : isBlank c = false) (escape : Char) :
    lexAll escape t ≠ [] := by
  have hpart : ∃ w, Mark.part w ∈ scan isBlank escape false t := by
    induction t with
    | nil => cases h
    | cons d rest ih =>
      by_cases hd : isBlank d = true
      · have hrest : c ∈ rest := by
          rcases List.mem_cons.1 h with rfl | hrest
          · rw [hc] at hd
            cases hd
          · exact hrest
        obtain ⟨w, hw⟩ := ih hrest
        rw [scan_cons_of_isBlank hd]
        exact ⟨w, List.mem_cons_of_mem _ hw⟩
      · obtain ⟨w, marks, hscan⟩ := exists_scan_eq_cons (Bool.eq_false_iff.2 hd) escape rest
        rw [hscan]
        exact ⟨w, List.mem_cons_self⟩
  obtain ⟨w, hw⟩ := hpart
  exact Mark.collect_ne_nil hw

end Word

/-! ## What an outcome is like -/

/-- What every instruction keeps of a state: the escape character, and that a line refers to the build
context. -/
structure State.Extends (s t : State) : Prop where
  escape : t.escape = s.escape
  usesContext : s.usesContext = true → t.usesContext = true

theorem State.Extends.refl (s : State) : s.Extends s := ⟨rfl, id⟩

theorem State.Extends.trans {s t u : State} (hst : s.Extends t) (htu : t.Extends u) : s.Extends u :=
  ⟨htu.escape.trans hst.escape, fun h => htu.usesContext (hst.usesContext h)⟩

/-- Whether instructions of a keyword leave comments only. -/
def Keyword.isSilent : Keyword → Bool
  | .from | .label | .maintainer | .expose | .cmd | .entrypoint | .user => true
  | _ => false

/-- How many lines an instruction has, if it has an outcome and no files are written into the script: one for
each word that `ENV` and `ARG` bind, and one for all others. -/
def Instruction.lineCount (escape : Char) (i : Instruction) : Nat :=
  match i.keyword with
  | .env =>
    if '=' ∈ (Text.beforeBlank i.arguments).1 then (Word.lexAll escape i.arguments).length else 1
  | .arg => (Word.lexAll escape i.arguments).length
  | _ => 1

/-- The start of a comment. -/
def commentStart : Text := "# ".toList

/-- What an outcome of an instruction is like that has `count` lines, unless files are written into the
script, and that has comments only if it is `silent`. -/
structure Outcome.Fits (s : State) (o : Options) (count : Nat) (silent : Bool) (outcome : Outcome) :
    Prop where
  state : s.Extends outcome.state
  ne_nil : outcome.lines ≠ []
  length : o.embed = false → outcome.lines.length = count
  comment : silent = true → ∀ line ∈ outcome.lines, commentStart <+: line

theorem length_mapM {α β : Type} {f : α → Option β} {l : List α} {m : List β}
    (h : l.mapM f = some m) : m.length = l.length := by
  induction l generalizing m with
  | nil =>
    cases h
    rfl
  | cons x rest ih =>
    simp only [List.mapM_cons, Option.bind_eq_bind, Option.bind_eq_some_iff] at h
    obtain ⟨y, -, others, hothers, heq⟩ := h
    cases heq
    rw [List.length_cons, List.length_cons, ih hothers]

namespace State

variable {s : State} {o : Options} {files : FileView} {raw : Text} {outcome : Outcome}

theorem fits_line {t : State} (h : s.Extends t) {silent : Bool} {line : Text}
    (hline : silent = true → commentStart <+: line) : Outcome.Fits s o 1 silent ⟨[line], t⟩ where
  state := h
  ne_nil := List.cons_ne_nil _ _
  length := fun _ => rfl
  comment := fun hsilent => List.forall_mem_singleton.2 (hline hsilent)

theorem comment_prefix (t : Text) : commentStart <+: comment t := ⟨t, rfl⟩

/-- Most instructions have one line, if any, and leave the state as it is. -/
theorem fits_ofLine {p : Prop} [Decidable p] {silent : Bool} {line : Text}
    (hc : (if p then none else some (Outcome.ofLine line s)) = some outcome)
    (hline : silent = true → commentStart <+: line) : Outcome.Fits s o 1 silent outcome := by
  split at hc
  · cases hc
  · cases hc
    exact fits_line (.refl s) hline

theorem fits_compileWorkdir (hc : s.compileWorkdir raw = some outcome) :
    Outcome.Fits s o 1 false outcome := by
  obtain ⟨-, rfl⟩ := compileWorkdir_eq_some_iff.1 hc
  apply fits_line
  · exact ⟨rfl, id⟩
  · exact Bool.noConfusion

theorem fits_compileUser (hc : s.compileUser raw = some outcome) : Outcome.Fits s o 1 true outcome := by
  have hannounce : ∀ t u v : Text, commentStart <+: "# USER ".toList ++ t ++ u ++ v := by
    intro t u v
    exact ⟨"USER ".toList ++ t ++ u ++ v, rfl⟩
  obtain ⟨spec, others, -, -, ⟨-, rfl⟩ | ⟨-, rfl⟩⟩ := compileUser_eq_some_iff.1 hc
  all_goals
    apply fits_line
    · exact ⟨rfl, id⟩
    · exact fun _ => hannounce _ _ _

/-- `ENV` binds one name for each of its words, or one name. -/
theorem length_envBindings? {escape : Char} {bindings : List Binding}
    (h : envBindings? escape raw = some bindings) :
    bindings.length =
      if '=' ∈ (Text.beforeBlank raw).1 then (Word.lexAll escape raw).length else 1 := by
  rcases envBindings?_eq_some h with ⟨hform, hwords⟩ | ⟨hform, -, -, rfl⟩
  · rw [if_pos hform, (bindings?_eq_some_iff_forall₂.1 hwords).length_eq]
  · rw [if_neg hform, List.length_singleton]

theorem envBindings?_ne_nil {escape : Char} {bindings : List Binding}
    (h : envBindings? escape raw = some bindings) : bindings ≠ [] := by
  rintro rfl
  rcases envBindings?_eq_some h with ⟨hform, hwords⟩ | ⟨-, -, -, hnil⟩
  · have hraw : '=' ∈ raw := List.takeWhile_subset _ hform
    exact Word.lexAll_ne_nil hraw rfl escape (List.forall₂_nil_right_iff.1 (bindings?_eq_some_iff_forall₂.1 hwords))
  · cases hnil

theorem fits_compileEnv (hc : s.compileEnv raw = some outcome) :
    Outcome.Fits s o
      (if '=' ∈ (Text.beforeBlank raw).1 then (Word.lexAll s.escape raw).length else 1) false
      outcome := by
  obtain ⟨bindings, hbindings, rfl⟩ := Option.map_eq_some_iff.1 hc
  refine ⟨⟨rfl, id⟩, ?_, ?_, Bool.noConfusion⟩
  · simpa using envBindings?_ne_nil hbindings
  · intro _
    rw [List.length_map, List.length_map]
    exact length_envBindings? hbindings

theorem fits_compileArg (hc : s.compileArg raw = some outcome) :
    Outcome.Fits s o (Word.lexAll s.escape raw).length false outcome := by
  obtain ⟨hne, hlines, hstate⟩ := compileArg_eq_some_iff.1 hc
  exact ⟨hstate ▸ .refl s, hne, fun _ => length_mapM hlines, Bool.noConfusion⟩

theorem assemble_ne_nil (d : Delivery) (commands : List Text) (embedded : List (List Text)) :
    d.assemble commands embedded ≠ [] := by
  unfold Delivery.assemble
  split
  · exact List.cons_ne_nil _ _
  · exact List.cons_ne_nil _ _

theorem fits_compileDelivery {kind : Word → Source}
    (hc : s.compileDelivery o files kind raw = some outcome) : Outcome.Fits s o 1 false outcome := by
  obtain ⟨d, -, -, rfl⟩ := compileDelivery_eq_some_iff.1 hc
  refine ⟨⟨rfl, fun h => ?_⟩, assemble_ne_nil d _ _, ?_, Bool.noConfusion⟩
  · show (s.usesContext || _) = true
    rw [h, Bool.true_or]
  · intro hembed
    simp [Delivery.compile, Delivery.assemble, d.embedded?_of_embed_eq_false hembed]

/-- What the outcome of an instruction is like. -/
theorem fits_compile {i : Instruction} (hc : s.compile o files i = some outcome) :
    Outcome.Fits s o (i.lineCount s.escape) i.keyword.isSilent outcome := by
  unfold compile at hc
  unfold Instruction.lineCount
  generalize i.keyword = keyword at hc
  cases keyword with
  | «from» | cmd | entrypoint => exact fits_ofLine hc fun _ => comment_prefix _
  | run | volume => exact fits_ofLine hc Bool.noConfusion
  | copy | add => exact fits_compileDelivery hc
  | workdir => exact fits_compileWorkdir hc
  | env => exact fits_compileEnv hc
  | arg => exact fits_compileArg hc
  | user => exact fits_compileUser hc
  | label | maintainer | expose =>
    cases hc
    exact fits_line (.refl s) fun _ => comment_prefix _
  | unknown => cases hc

end State

/-! ## Runs -/

section Runs

variable {o : Options} {files : FileView}

theorem extends_ofInstruction (s : State) (i : Instruction) :
    s.Extends (Step.ofInstruction o files s i).state := by
  unfold Step.ofInstruction
  split
  · next hc => exact (State.fits_compile hc).state
  · exact .refl s

theorem extends_stateAfter {s : State} {is : List Instruction} {before after : List Step}
    (h : traceFrom o files s is = before ++ after) : s.Extends (stateAfter s before) :=
  stateAfter_induction (fun _ i _ ht => ht.trans (extends_ofInstruction _ i)) (.refl s) h

end Runs

/-- Whether a step is the block of its instruction: the lines of its outcome in the state `s`, or the comment
that shows it. -/
structure Step.IsBlock (o : Options) (files : FileView) (escape : Char) (s : State) (step : Step) :
    Prop where
  /-- The instruction is compiled in the state, or left out. -/
  outcome : (∃ outcome, s.compile o files step.instruction = some outcome ∧
      step.statements = outcome.lines ∧ step.lines.isNone = false ∧ step.state = outcome.state) ∨
    s.compile o files step.instruction = none ∧
      step.statements = ["# skipped: ".toList ++ step.instruction.source] ∧
      step.lines.isNone = true ∧ step.state = s
  ne_nil : step.statements ≠ []
  length : o.embed = false →
    step.statements.length = if step.lines.isNone then 1 else step.instruction.lineCount escape
  comment : step.lines.isNone = true ∨ step.instruction.keyword.isSilent = true →
    ∀ line ∈ step.statements, commentStart <+: line

theorem isBlock_ofInstruction (o : Options) (files : FileView) (s : State) (i : Instruction) :
    (Step.ofInstruction o files s i).IsBlock o files s.escape s := by
  cases hc : s.compile o files i with
  | none =>
    have hstep : Step.ofInstruction o files s i = ⟨i, none, s⟩ := by rw [Step.ofInstruction, hc]
    rw [hstep]
    refine ⟨.inr ⟨hc, rfl, rfl, rfl⟩, List.cons_ne_nil _ _, fun _ => rfl, fun _ => ?_⟩
    exact List.forall_mem_singleton.2 ⟨"skipped: ".toList ++ i.source, rfl⟩
  | some outcome =>
    have hstep : Step.ofInstruction o files s i = ⟨i, some outcome.lines, outcome.state⟩ := by
      rw [Step.ofInstruction, hc]
    have hfits := State.fits_compile hc
    rw [hstep]
    refine ⟨.inl ⟨outcome, hc, rfl, rfl, rfl⟩, hfits.ne_nil, hfits.length, fun h => ?_⟩
    rcases h with h | h
    · cases h
    · exact hfits.comment h

/-- The statements of a script are the blocks of its instructions, one for each of them in their order, and
those that are left out are counted. -/
theorem statements_compile_blocks (o : Options) (files : FileView) (input : Text) :
    (trace o files input).map Step.instruction = instructions input ∧
    (compile o files input).statements = (trace o files input).flatMap Step.statements ∧
    (compile o files input).skipped = (trace o files input).countP (·.lines.isNone) ∧
    ∀ before step after, trace o files input = before ++ step :: after →
      step.IsBlock o files (escapeOf input) (stateAfter (.initial (escapeOf input)) before) := by
  refine ⟨map_instruction_traceFrom _ _, ?_, ?_, ?_⟩
  · rw [compile_eq_scriptOf, statements_scriptOf]
  · rw [compile_eq_scriptOf, skipped_scriptOf, List.countP_eq_length_filter]
  · intro before step after h
    have hextends := extends_stateAfter h
    have hescape : (stateAfter (.initial (escapeOf input)) before).escape = escapeOf input :=
      hextends.escape
    have hblock := isBlock_ofInstruction o files (stateAfter (.initial (escapeOf input)) before)
      step.instruction
    rwa [hescape, ← eq_ofInstruction_of_traceFrom_eq h] at hblock

/-- The lines of `ENV` are a block between two comments. -/
theorem statements_compile_blocks_env : ∃ (before after : List Step) (step : Step),
    trace {} (fun _ => none) "FROM x\nENV A=1 B=2\nFOO".toList = before ++ step :: after ∧
    step.statements = ["export A=1".toList, "export B=2".toList] ∧
    step.IsBlock {} (fun _ => none) '\\' (stateAfter (.initial '\\') before) := by
  have htrace : (trace {} (fun _ => none) "FROM x\nENV A=1 B=2\nFOO".toList).any (fun step =>
      step.statements = ["export A=1".toList, "export B=2".toList]) = true := by decide +kernel
  obtain ⟨step, hstep, hlines⟩ := List.any_eq_true.1 htrace
  obtain ⟨before, after, hsplit⟩ := List.append_of_mem hstep
  have hescape : escapeOf "FROM x\nENV A=1 B=2\nFOO".toList = '\\' := by decide
  obtain ⟨-, -, -, hblocks⟩ :=
    statements_compile_blocks {} (fun _ => none) "FROM x\nENV A=1 B=2\nFOO".toList
  rw [hescape] at hblocks
  exact ⟨before, after, step, hsplit, of_decide_eq_true hlines, hblocks _ _ _ hsplit⟩

end BuildScript
