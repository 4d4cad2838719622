import BuildScript.Proofs.Compile.Accepted
import BuildScript.Proofs.Compile.Substitution
import BuildScript.Proofs.Posix.Command

/-!
# What the lines of `ENV` export

A run of `ENV` instructions has two meanings. In the build file all values of an instruction are taken in
the variables before it (`Vars.assign`). In the script the lines run one by one, and each is read in the
variables that the line before it left (`Export.run`).

The two agree exactly if, for every name, the last line that exports it is read as what its value meant
(`run_exports_iff`). The words of the lines refer to the variables from before the first instruction, but
they are read later: so, where modifiers are decided by the recorded words, the two agree exactly if those
lines are read as they would have been at the start. Without modifiers what the lines before a line make of
its word can be computed (`Export.asRead`), and the two agree whatever the variables are at the start
exactly if that is the word itself.
-/

namespace BuildScript

open Posix

/-- One line of a run: its name and its value as the build file has them, and what the instructions
before its own bind. -/
structure Export where
  name : Text
  value : Word
  past : List (List Binding)

namespace Export

/-- What is recorded before the instruction. -/
def env (x : Export) : Environment := x.past.foldl Environment.record []

/-- The variables that the build file means by then. -/
def vars (ρ : Vars) (x : Export) : Vars := x.past.foldl Vars.assign ρ

/-- The word that the line writes. -/
def written (x : Export) : Word := x.env.expand x.value

/-- The text that the value means. -/
def meant (ρ : Vars) (x : Export) : Text := x.value.value (x.vars ρ)

def line (x : Export) : Text := State.exportLine x.name x.written

/-- The text that the line gives its variable when a shell runs it. -/
def given (m : Machine) (ρ : Vars) (x : Export) : Text :=
  ((runExport? m ρ x.line).getD ρ).text x.name

/-- The lines of instructions that come after those of `past`. -/
def ofBindings (past : List (List Binding)) : List (List Binding) → List Export
  | [] => []
  | bindings :: rest =>
    bindings.map (fun b => ⟨b.1, b.2, past⟩) ++ ofBindings (past ++ [bindings]) rest

/-- Gives every name the text `g` of its line in turn. -/
def fold (g : Vars → Export → Text) (ρ : Vars) (xs : List Export) : Vars :=
  xs.foldl (fun τ x => τ.set x.name (g τ x)) ρ

/-- The variables that the lines leave. -/
def run (m : Machine) (ρ : Vars) (xs : List Export) : Vars :=
  fold (given m) ρ xs

/-- What lines leave, in words that refer to the variables from the start: what would be recorded if each
line were an instruction of its own. -/
def asRead (xs : List Export) : Environment :=
  (xs.map fun x => [(x.name, x.written)]).foldl Environment.record []

/-- Whether all lines that are the last ones for their names satisfy `P`, which may also look at the lines
before them. -/
def ForLast (P : List Export → Export → Prop) (xs : List Export) : Prop :=
  ∀ before x after, xs = before ++ x :: after → x.name ∉ after.map Export.name → P before x

/-! ## The last line of a name decides -/

theorem fold_of_notMem {g : Vars → Export → Text} {name : Text} {xs : List Export}
    (h : name ∉ xs.map Export.name) (ρ : Vars) : fold g ρ xs name = ρ name := by
  induction xs generalizing ρ with
  | nil => rfl
  | cons x xs ih =>
    rw [List.map_cons, List.mem_cons, not_or] at h
    rw [fold, List.foldl_cons, ← fold, ih h.2, Vars.set_of_ne _ _ h.1]

theorem fold_last {g : Vars → Export → Text} {before after : List Export} {x : Export}
    (h : x.name ∉ after.map Export.name) (ρ : Vars) :
    fold g ρ (before ++ x :: after) x.name = some (g (fold g ρ before) x) := by
  rw [fold, List.foldl_append, List.foldl_cons, ← fold, ← fold, fold_of_notMem h, Vars.set_self]

theorem exists_last {name : Text} {xs : List Export} (h : name ∈ xs.map Export.name) :
    ∃ before x after, xs = before ++ x :: after ∧ x.name = name ∧ name ∉ after.map Export.name := by
  induction xs with
  | nil => cases h
  | cons x xs ih =>
    by_cases hlater : name ∈ xs.map Export.name
    · obtain ⟨before, y, after, rfl, hname, hafter⟩ := ih hlater
      exact ⟨x :: before, y, after, rfl, hname, hafter⟩
    · rw [List.map_cons, List.mem_cons] at h
      exact ⟨[], x, xs, rfl, (h.resolve_right hlater).symm, hlater⟩

theorem fold_eq_iff {g g' : Vars → Export → Text} {ρ : Vars} {xs : List Export} :
    fold g ρ xs = fold g' ρ xs ↔
      ForLast (fun before x => g (fold g ρ before) x = g' (fold g' ρ before) x) xs := by
  constructor
  · rintro h before x after rfl hlast
    have hname := congrFun h x.name
    rw [fold_last hlast, fold_last hlast, Option.some.injEq] at hname
    exact hname
  · intro h
    funext name
    by_cases hname : name ∈ xs.map Export.name
    · obtain ⟨before, x, after, rfl, rfl, hlast⟩ := exists_last hname
      rw [fold_last hlast, fold_last hlast, h before x after rfl hlast]
    · rw [fold_of_notMem hname, fold_of_notMem hname]

theorem forLast_congr {P Q : List Export → Export → Prop} {xs : List Export}
    (h : ∀ before, ∀ x ∈ xs, P before x ↔ Q before x) : ForLast P xs ↔ ForLast Q xs := by
  constructor
  · intro hP before x after heq hlast
    exact (h before x (heq ▸ List.mem_append_cons_self)).1 (hP before x after heq hlast)
  · intro hQ before x after heq hlast
    exact (h before x (heq ▸ List.mem_append_cons_self)).2 (hQ before x after heq hlast)

/-- What instructions mean is what their lines would leave if each were read as its value is meant. -/
theorem fold_meant (past : List (List Binding)) (ρ : Vars) (bss : List (List Binding)) :
    fold (fun _ x => x.meant ρ) (past.foldl Vars.assign ρ) (ofBindings past bss) =
      (past ++ bss).foldl Vars.assign ρ := by
  induction bss generalizing past with
  | nil => rw [List.append_nil]; rfl
  | cons bindings rest ih =>
    have hfirst : fold (fun _ x => x.meant ρ) (past.foldl Vars.assign ρ)
        (bindings.map fun b => ⟨b.1, b.2, past⟩) = (past ++ [bindings]).foldl Vars.assign ρ := by
      rw [fold, List.foldl_map, List.foldl_append]
      rfl
    rw [ofBindings, fold, List.foldl_append, ← fold, ← fold, hfirst, ih, List.append_assoc]
    rfl

/-- If modifiers are decided by the recorded words, the written words mean at the start what the values mean
by then. -/
theorem meant_eq_value (past : List (List Binding)) {ρ : Vars}
    (h : (past.foldl Environment.record []).Holds ρ (past.foldl Vars.assign ρ))
    {bss : List (List Binding)} (hdecided : ∀ x ∈ ofBindings past bss, x.env.Decides ρ x.value) :
    ∀ x ∈ ofBindings past bss, x.meant ρ = x.written.value ρ := by
  induction bss generalizing past with
  | nil => simp [ofBindings]
  | cons bindings rest ih =>
    have hfirst : ∀ b ∈ bindings, (past.foldl Environment.record []).Decides ρ b.2 := fun b hb =>
      hdecided ⟨b.1, b.2, past⟩ (List.mem_append_left _ (List.mem_map_of_mem hb))
    have hnext : ((past ++ [bindings]).foldl Environment.record []).Holds ρ
        ((past ++ [bindings]).foldl Vars.assign ρ) := by
      rw [List.foldl_append, List.foldl_append]
      exact h.record hfirst
    intro x hx
    rcases List.mem_append.1 hx with hx | hx
    · obtain ⟨b, hb, rfl⟩ := List.mem_map.1 hx
      exact (Environment.value_expand h (hfirst b hb)).symm
    · exact ih _ hnext (fun y hy => hdecided y (List.mem_append_right _ hy)) x hx

theorem run_eq_assign_iff (m : Machine) (ρ : Vars) (bss : List (List Binding)) :
    run m ρ (ofBindings [] bss) = bss.foldl Vars.assign ρ ↔
      ForLast (fun before x => x.given m (run m ρ before) = x.meant ρ) (ofBindings [] bss) := by
  have hmeant : fold (fun _ x => x.meant ρ) ρ (ofBindings [] bss) = bss.foldl Vars.assign ρ :=
    fold_meant [] ρ bss
  rw [← hmeant]
  exact fold_eq_iff

theorem run_eq_assign_iff_of_decides {m : Machine} {ρ : Vars} {bss : List (List Binding)}
    (hdecided : ∀ x ∈ ofBindings [] bss, x.env.Decides ρ x.value) :
    run m ρ (ofBindings [] bss) = bss.foldl Vars.assign ρ ↔
      ForLast (fun before x => x.given m (run m ρ before) = x.written.value ρ) (ofBindings [] bss) := by
  rw [run_eq_assign_iff]
  apply forLast_congr
  intro before x hx
  rw [meant_eq_value [] (Environment.holds_nil ρ) hdecided x hx]

theorem exists_of_mem_ofBindings {past bss : List (List Binding)} {x : Export}
    (h : x ∈ ofBindings past bss) :
    ∃ before bindings after, bss = before ++ bindings :: after ∧ (x.name, x.value) ∈ bindings ∧
      x.past = past ++ before := by
  induction bss generalizing past with
  | nil => cases h
  | cons bindings rest ih =>
    rcases List.mem_append.1 h with h | h
    · obtain ⟨b, hb, rfl⟩ := List.mem_map.1 h
      exact ⟨[], bindings, rest, rfl, hb, (List.append_nil past).symm⟩
    · obtain ⟨before, bs, after, rfl, hmem, hpast⟩ := ih h
      refine ⟨bindings :: before, bs, after, rfl, hmem, ?_⟩
      rw [hpast, List.append_assoc]
      rfl

/-! ## A line as the shell runs it -/

/-- Whether a line exports a name and refers to names only. -/
def Named (x : Export) : Prop := isName x.name = true ∧ x.written.named = true

/-- What holds of the values and of words that are expanded holds of the written words. -/
theorem forall_written (p : Word → Bool) (hexpand : ∀ {env : Environment},
      (∀ b ∈ env, p b.2 = true) → ∀ {w : Word}, p w = true → p (env.expand w) = true)
    {bss : List (List Binding)} (h : ∀ bindings ∈ bss, ∀ b ∈ bindings, p b.2 = true) :
    ∀ x ∈ ofBindings [] bss, p x.written = true := by
  intro x hx
  obtain ⟨before, bindings, after, rfl, hmem, hpast⟩ := exists_of_mem_ofBindings hx
  have henv : ∀ b ∈ x.env, p b.2 = true := by
    rw [env, hpast]
    apply Environment.forall_foldl_record p hexpand (fun b hb => by cases hb)
    exact fun bs hbs => h bs (List.mem_append_left _ hbs)
  exact hexpand henv (h bindings List.mem_append_cons_self _ hmem)

theorem named_ofBindings {bss : List (List Binding)}
    (h : ∀ bindings ∈ bss, ∀ b ∈ bindings, isName b.1 = true ∧ b.2.named = true) :
    ∀ x ∈ ofBindings [] bss, x.Named := by
  have hwritten := forall_written Word.named Environment.Named.expand fun bs hbs b hb => (h bs hbs b hb).2
  intro x hx
  obtain ⟨before, bindings, after, rfl, hmem, -⟩ := exists_of_mem_ofBindings hx
  exact ⟨(h bindings List.mem_append_cons_self _ hmem).1, hwritten x hx⟩

/-- An `export` line is two words; the second one is the name, an equals sign, and what the shell makes of
the value, which is its value unless a brace in a modifier is in the way. -/
theorem fieldsOf?_exportLine {name : Text} (hname : isName name = true) {w : Word}
    (hw : w.named = true) (m : Machine) (ρ : Vars) :
    ∃ t, fieldsOf? m ρ (State.exportLine name w) = some ["export".toList, name ++ '=' :: t] ∧
      (w.closed = true → t = w.value ρ) := by
  have hnamed : Statement.IsNamed [[.plain "export".toList, .binding name w]] := by
    refine ⟨by simp, List.forall_mem_singleton.2 ⟨by simp, ?_⟩⟩
    intro o ho
    simp only [List.mem_cons, List.not_mem_nil, or_false] at ho
    rcases ho with rfl | rfl
    · rfl
    · exact ⟨hname, hw⟩
  obtain ⟨ts, hts, hread⟩ := Statement.read_text hnamed
  have hline : read (State.exportLine name w) = some ts := hts
  cases hread with
  | and hc hs => cases hs
  | last hc =>
    obtain _ | ⟨⟨ms, rfl, rfl⟩, _ | ⟨⟨_, rfl, ns, rfl, hreads⟩, _ | _⟩⟩ := hc
    obtain ⟨t, htext⟩ := exists_textOf?_of_inert (m := m) (ρ := ρ) hreads.inert
    have hassign := isPlain_assign hname
    have hvalue := fields?_of_inert (m := m) (ρ := ρ)
      ((Reads.ofPlain hassign).append hreads).inert (by simp [Mark.isSolid])
    rw [textOf?_append m ρ (textOf?_map_char m ρ false _) htext] at hvalue
    have hcommand : fields? m ρ ("export".toList.map (.char false)) = some ["export".toList] := by
      have hplain : isPlainText "export".toList = true := rfl
      rw [fields?_of_inert (Reads.ofPlain (isPlainText_iff.1 hplain).2).inert rfl, textOf?_map_char]
      rfl
    refine ⟨t, ?_, ?_⟩
    · simp only [fieldsOf?, hline, words?, allFields?, hcommand, hvalue, Option.bind_eq_bind,
        Option.bind_some, Option.map_some]
      simp
    · intro hclosed
      rw [hreads.value hclosed m ρ] at htext
      exact (Option.some.inj htext).symm

theorem exists_runExport?_line {x : Export} (hx : x.Named) (m : Machine) (ρ : Vars) :
    ∃ t, runExport? m ρ x.line = some (ρ.set x.name t) ∧
      (x.written.closed = true → t = x.written.value ρ) := by
  obtain ⟨t, hfields, ht⟩ := fieldsOf?_exportLine hx.1 hx.2 m ρ
  have hnotMem : '=' ∉ x.name := by
    intro hmem
    have hchar := isNameChar_of_mem_isName hx.1 hmem
    exact absurd hchar (by decide)
  have hoperand : exportOperand? ρ (x.name ++ '=' :: t) = some (ρ.set x.name t) := by
    rw [exportOperand?, Text.cutAt_append hnotMem]
    exact if_pos hx.1
  refine ⟨t, ?_, ht⟩
  rw [runExport?, line, hfields, Option.bind_eq_bind, Option.bind_some]
  simp only [if_true, List.foldlM_cons, hoperand, List.foldlM_nil]
  rfl

/-- A line sets its variable and nothing else. -/
theorem runExport?_line {x : Export} (hx : x.Named) (m : Machine) (ρ : Vars) :
    runExport? m ρ x.line = some (ρ.set x.name (x.given m ρ)) := by
  obtain ⟨t, hrun, -⟩ := exists_runExport?_line hx m ρ
  rw [given, hrun, Option.getD_some, Vars.text_set, if_pos rfl]

theorem given_of_closed {x : Export} (hx : x.Named) (hclosed : x.written.closed = true) (m : Machine)
    (ρ : Vars) : x.given m ρ = x.written.value ρ := by
  obtain ⟨t, hrun, ht⟩ := exists_runExport?_line hx m ρ
  rw [given, hrun, Option.getD_some, Vars.text_set, if_pos rfl, ht hclosed]

theorem runExports?_lines {xs : List Export} (h : ∀ x ∈ xs, x.Named) (m : Machine) (ρ : Vars) :
    runExports? m ρ (xs.map line) = some (run m ρ xs) := by
  induction xs generalizing ρ with
  | nil => rfl
  | cons x xs ih =>
    rw [List.map_cons, runExports?, runExport?_line (h x List.mem_cons_self), Option.bind_some,
      ih fun y hy => h y (List.mem_cons_of_mem _ hy)]
    rfl

/-! ## Lines without modifiers -/

/-- Lines without modifiers run as instructions of their own would. -/
theorem run_eq_foldl_assign {xs : List Export} (hnamed : ∀ x ∈ xs, x.Named)
    (hunmodified : ∀ x ∈ xs, x.written.unmodified = true) (m : Machine) (ρ : Vars) :
    run m ρ xs = (xs.map fun x => [(x.name, x.written)]).foldl Vars.assign ρ := by
  induction xs generalizing ρ with
  | nil => rfl
  | cons x xs ih =>
    obtain ⟨hx, hxs⟩ := List.forall_mem_cons.1 hnamed
    obtain ⟨hword, hwords⟩ := List.forall_mem_cons.1 hunmodified
    have hgiven := given_of_closed hx (Word.closed_of_unmodified hword) m ρ
    rw [run, fold, List.foldl_cons, ← fold, ← run, ih hxs hwords, hgiven]
    rfl

theorem unmodified_bindings {xs : List Export} (h : ∀ x ∈ xs, x.written.unmodified = true) :
    ∀ bindings ∈ xs.map fun x => [(x.name, x.written)], ∀ b ∈ bindings, b.2.unmodified = true := by
  intro bindings hbindings b hb
  obtain ⟨x, hx, rfl⟩ := List.mem_map.1 hbindings
  rw [List.mem_singleton.1 hb]
  exact h x hx

theorem holds_asRead {xs : List Export} (hnamed : ∀ x ∈ xs, x.Named)
    (hunmodified : ∀ x ∈ xs, x.written.unmodified = true) (m : Machine) (ρ : Vars) :
    (asRead xs).Holds ρ (run m ρ xs) := by
  rw [run_eq_foldl_assign hnamed hunmodified]
  exact (Environment.holds_nil ρ).foldl_record (unmodified_bindings hunmodified)

theorem unmodified_expand_asRead {xs : List Export} (h : ∀ x ∈ xs, x.written.unmodified = true)
    {w : Word} (hw : w.unmodified = true) : ((asRead xs).expand w).unmodified = true := by
  apply Environment.unmodified_expand _ hw
  exact Environment.forall_foldl_record Word.unmodified Environment.unmodified_expand
    (fun b hb => by cases hb) (unmodified_bindings h)

/-- A line is given the value, in the variables from the start, of what the lines before it make of its
word. -/
theorem given_run {x : Export} {before : List Export} (hnamed : ∀ y ∈ x :: before, y.Named)
    (hunmodified : ∀ y ∈ x :: before, y.written.unmodified = true) (m : Machine) (ρ : Vars) :
    x.given m (run m ρ before) = ((asRead before).expand x.written).value ρ := by
  obtain ⟨hx, hbefore⟩ := List.forall_mem_cons.1 hnamed
  obtain ⟨hword, hwords⟩ := List.forall_mem_cons.1 hunmodified
  rw [given_of_closed hx (Word.closed_of_unmodified hword),
    Environment.value_expand (holds_asRead hbefore hwords m ρ) (Environment.decides_of_unmodified hword)]

/-- Without modifiers the two meanings agree for all variables at the start exactly if the lines before one
that is the last for its name make nothing else of its word. -/
theorem forall_run_eq_assign_iff {bss : List (List Binding)} (hnamed : ∀ x ∈ ofBindings [] bss, x.Named)
    (hunmodified : ∀ bindings ∈ bss, ∀ b ∈ bindings, b.2.unmodified = true) (m : Machine) :
    (∀ ρ, run m ρ (ofBindings [] bss) = bss.foldl Vars.assign ρ) ↔
      ForLast (fun before x => (asRead before).expand x.written = x.written) (ofBindings [] bss) := by
  have hwritten : ∀ x ∈ ofBindings [] bss, x.written.unmodified = true :=
    forall_written Word.unmodified Environment.unmodified_expand hunmodified
  have hdecided : ∀ ρ, ∀ x ∈ ofBindings [] bss, x.env.Decides ρ x.value := by
    intro ρ x hx
    obtain ⟨before, bindings, after, rfl, hmem, -⟩ := exists_of_mem_ofBindings hx
    apply Environment.decides_of_unmodified
    exact hunmodified bindings List.mem_append_cons_self _ hmem
  have hmem : ∀ {before x after}, ofBindings [] bss = before ++ x :: after →
      ∀ y ∈ x :: before, y ∈ ofBindings [] bss := by
    intro before x after heq y hy
    rw [heq, List.mem_append, List.mem_cons]
    rcases List.mem_cons.1 hy with rfl | hy
    · exact .inr (.inl rfl)
    · exact .inl hy
  constructor
  · intro h before x after heq hlast
    have hwords := fun y hy => hwritten y (hmem heq y hy)
    obtain ⟨hword, hbefore⟩ := List.forall_mem_cons.1 hwords
    apply Word.eq_of_value_eq (unmodified_expand_asRead hbefore hword) hword
    intro ρ
    rw [← given_run (fun y hy => hnamed y (hmem heq y hy)) hwords m ρ]
    exact (run_eq_assign_iff_of_decides (hdecided ρ)).1 (h ρ) before x after heq hlast
  · intro h ρ
    apply (run_eq_assign_iff_of_decides (hdecided ρ)).2
    intro before x after heq hlast
    rw [given_run (fun y hy => hnamed y (hmem heq y hy)) (fun y hy => hwritten y (hmem heq y hy)) m ρ,
      h before x after heq hlast]

/-! ## Runs of `ENV` -/

/-- Whether an instruction is an `ENV` that is accepted, with these bindings. -/
def Binds (escape : Char) (i : Instruction) (bindings : List Binding) : Prop :=
  i.keyword = .env ∧ State.envBindings? escape i.arguments = some bindings

variable {escape : Char} {is : List Instruction} {bss : List (List Binding)}

theorem named_of_binds (h : List.Forall₂ (Binds escape) is bss) : ∀ x ∈ ofBindings [] bss, x.Named := by
  apply named_ofBindings
  exact forall_mem_of_forall₂ h fun i bindings hbinds => State.named_envBindings? hbinds.2

theorem statements_traceFrom (o : Options) (files : FileView) {s : State} {past : List (List Binding)}
    (hpast : s.env = past.foldl Environment.record [])
    (h : List.Forall₂ (Binds s.escape) is bss) :
    (traceFrom o files s is).flatMap Step.statements = (ofBindings past bss).map line := by
  induction is generalizing s past bss with
  | nil =>
    cases h
    rfl
  | cons i is ih =>
    obtain _ | ⟨⟨hkeyword, hbindings⟩, hrest⟩ := h
    next bindings rest =>
    let lines := (s.env.bind bindings).map fun b => State.exportLine b.1 b.2
    let after := { s with env := s.env.record bindings }
    have hcompile : s.compile o files i = some ⟨lines, after⟩ := by
      rw [State.compile, hkeyword]
      simp only [State.compileEnv, hbindings]
      rfl
    have hstep : Step.ofInstruction o files s i = ⟨i, some lines, after⟩ := by
      rw [Step.ofInstruction, hcompile]
    have hlines : lines = (bindings.map fun b => ⟨b.1, b.2, past⟩).map line := by
      simp only [lines, hpast, Environment.bind, List.map_map]
      rfl
    have hafter : after.env = (past ++ [bindings]).foldl Environment.record [] := by
      rw [List.foldl_append, ← hpast]
      rfl
    have hothers := ih (s := after) hafter hrest
    rw [traceFrom, hstep, ofBindings, List.map_append, ← hlines]
    exact congrArg (lines ++ ·) hothers

theorem runExports?_traceFrom (o : Options) (files : FileView) (m : Machine)
    (h : List.Forall₂ (Binds escape) is bss) (ρ : Vars) :
    runExports? m ρ ((traceFrom o files (.initial escape) is).flatMap Step.statements) =
      some (run m ρ (ofBindings [] bss)) := by
  have hlines : (traceFrom o files (.initial escape) is).flatMap Step.statements =
      (ofBindings [] bss).map line :=
    statements_traceFrom o files (s := .initial escape) rfl h
  rw [hlines]
  exact runExports?_lines (named_of_binds h) m ρ

/-- The script does what the build file says if no line refers to a name that a line above it exports,
modifiers are decided by the recorded words and their words close no braces. -/
theorem runExports?_of_fresh (o : Options) (files : FileView) (m : Machine) (ρ : Vars)
    (h : List.Forall₂ (Binds escape) is bss)
    (hdecided : ∀ x ∈ ofBindings [] bss, x.env.Decides ρ x.value)
    (hclosed : ∀ x ∈ ofBindings [] bss, x.written.closed = true)
    (hfresh : ∀ before x after, ofBindings [] bss = before ++ x :: after →
      ∀ name ∈ x.written.names, name ∉ before.map Export.name) :
    runExports? m ρ ((traceFrom o files (.initial escape) is).flatMap Step.statements) =
      some (bss.foldl Vars.assign ρ) := by
  rw [runExports?_traceFrom o files m h ρ, Option.some.injEq, run_eq_assign_iff]
  intro before x after heq hlast
  have hmem : x ∈ ofBindings [] bss := heq ▸ List.mem_append_cons_self
  rw [given_of_closed (named_of_binds h x hmem) (hclosed x hmem),
    meant_eq_value [] (Environment.holds_nil ρ) hdecided x hmem]
  apply Word.value_congr
  intro name hname
  rw [Vars.text, Vars.text, run, fold_of_notMem (hfresh before x after heq name hname)]

/-- The script does what the build file says exactly if each line that is the last one for its name gives it
the text that its value meant before its instruction. Where all modifiers are decided by the recorded
words, that is so exactly if each of them gives, in the variables that the lines before it left, the text
that its word has in the variables from the start. Where there are no modifiers, the script does it for all
variables exactly if the lines before each of them turn its word into itself. -/
theorem run_exports_iff (o : Options) (files : FileView) (m : Machine)
    (h : List.Forall₂ (Binds escape) is bss) :
    (∀ ρ, ∃ τ,
      runExports? m ρ ((traceFrom o files (.initial escape) is).flatMap Step.statements) = some τ ∧
      (τ = bss.foldl Vars.assign ρ ↔
        ForLast (fun before x => x.given m (run m ρ before) = x.meant ρ) (ofBindings [] bss)) ∧
      ((∀ x ∈ ofBindings [] bss, x.env.Decides ρ x.value) →
        (τ = bss.foldl Vars.assign ρ ↔
          ForLast (fun before x => x.given m (run m ρ before) = x.written.value ρ)
            (ofBindings [] bss)))) ∧
    ((∀ bindings ∈ bss, ∀ b ∈ bindings, b.2.unmodified = true) →
      ((∀ ρ, runExports? m ρ ((traceFrom o files (.initial escape) is).flatMap Step.statements) =
          some (bss.foldl Vars.assign ρ)) ↔
        ForLast (fun before x => (asRead before).expand x.written = x.written)
          (ofBindings [] bss))) := by
  constructor
  · intro ρ
    refine ⟨run m ρ (ofBindings [] bss), runExports?_traceFrom o files m h ρ, ?_, ?_⟩
    · exact run_eq_assign_iff m ρ bss
    · exact run_eq_assign_iff_of_decides
  · intro hunmodified
    simp only [runExports?_traceFrom o files m h, Option.some.injEq]
    exact forall_run_eq_assign_iff (named_of_binds h) hunmodified m

/-- A value that stays live: the line before it leaves its word alone. -/
theorem run_exports_iff_live :
    (∀ ρ, runExports? (.bare []) ρ ((traceFrom {} (fun _ => none) (.initial '\\')
        [⟨.env, "ENV".toList, "A=1 B=$C".toList, 0, []⟩]).flatMap Step.statements) =
      some ([[("A".toList, .literal "1".toList), ("B".toList, .var "C".toList .nil)]].foldl
        Vars.assign ρ)) ↔
    ForLast (fun before x => (asRead before).expand x.written = x.written)
      (ofBindings [] [[("A".toList, .literal "1".toList), ("B".toList, .var "C".toList .nil)]]) := by
  have hbinds : List.Forall₂ (Binds '\\') [⟨.env, "ENV".toList, "A=1 B=$C".toList, 0, []⟩]
      [[("A".toList, .literal "1".toList), ("B".toList, .var "C".toList .nil)]] :=
    .cons ⟨rfl, by decide +kernel⟩ .nil
  exact (run_exports_iff {} (fun _ => none) (.bare []) hbinds).2 (by decide +kernel)

/-- The recorded word of `P` still refers to `P`, which is another one when the second line is read. -/
theorem run_exports_stale :
    ¬ ∀ (is : List Instruction) (bss : List (List Binding)) (ρ : Vars),
      List.Forall₂ (Binds '\\') is bss →
      runExports? (.bare []) ρ
          ((traceFrom {} (fun _ => none) (.initial '\\') is).flatMap Step.statements) =
        some (bss.foldl Vars.assign ρ) := by
  intro h
  have hrun := h
    [⟨.env, "ENV".toList, "P=/a:$P".toList, 0, []⟩, ⟨.env, "ENV".toList, "P=/b:$P".toList, 1, []⟩]
    [[("P".toList, (Word.literal "/a:".toList).append (.var "P".toList .nil))],
      [("P".toList, (Word.literal "/b:".toList).append (.var "P".toList .nil))]]
    (fun _ => some "c".toList)
    (.cons ⟨rfl, by decide +kernel⟩ (.cons ⟨rfl, by decide +kernel⟩ .nil))
  have hscript : (runExports? (.bare []) (fun _ => some "c".toList)
      ((traceFrom {} (fun _ => none) (.initial '\\')
        [⟨.env, "ENV".toList, "P=/a:$P".toList, 0, []⟩,
          ⟨.env, "ENV".toList, "P=/b:$P".toList, 1, []⟩]).flatMap Step.statements)).map
        (Vars.text · "P".toList) = some "/b:/a:/a:c".toList := by decide +kernel
  rw [hrun] at hscript
  revert hscript
  decide

end Export

end BuildScript
