import Mathlib.Data.List.Basic
import BuildScript.Compile

/-!
# Steps of compiling

A script is put together from steps (`scriptOf`). Steps of instructions that follow others are the
steps from the state that those left (`traceFrom_append`), and what all steps keep holds in each of these
states (`stateAfter_induction`, `exists_state_of_mem_traceFrom`). What a step does has nothing to do with
the number of its line (`traceFrom_unnumbered`).
-/

namespace BuildScript

variable {o : Options} {files : FileView}

/-- The state after some steps from `s` on. -/
def stateAfter (s : State) (steps : List Step) : State := (steps.getLast?.map Step.state).getD s

/-- The script that steps come to. -/
def scriptOf (o : Options) (steps : List Step) : Script :=
  { (prologue o ((steps.getLast?.map (·.state.usesContext)).getD false)).extend
      (steps.flatMap Step.statements) with
    skipped := (steps.filter (·.lines.isNone)).length }

theorem compile_eq_scriptOf (o : Options) (files : FileView) (input : Text) :
    compile o files input = scriptOf o (trace o files input) := rfl

@[simp] theorem statements_prologue (o : Options) (usesContext : Bool) :
    (prologue o usesContext).statements = [] := by
  unfold prologue
  cases o.sourceName <;> cases usesContext <;> rfl

@[simp] theorem statements_scriptOf (o : Options) (steps : List Step) :
    (scriptOf o steps).statements = steps.flatMap Step.statements := by
  change (prologue o _).statements ++ _ = _
  rw [statements_prologue, List.nil_append]

@[simp] theorem skipped_scriptOf (o : Options) (steps : List Step) :
    (scriptOf o steps).skipped = (steps.filter (·.lines.isNone)).length := rfl

theorem prologue_scriptOf (o : Options) (steps : List Step) :
    (scriptOf o steps).prologue =
      (prologue o ((steps.getLast?.map (·.state.usesContext)).getD false)).prologue := rfl

/-! ## Results of a list -/

/-- If all elements have a result, each result is that of an element. -/
theorem exists_of_mem_mapM {α β : Type} {f : α → Option β} {l : List α} {m : List β}
    (h : l.mapM f = some m) {b : β} (hb : b ∈ m) : ∃ a ∈ l, f a = some b := by
  induction l generalizing m with
  | nil =>
    cases h
    cases hb
  | cons a l ih =>
    simp only [List.mapM_cons, Option.bind_eq_bind, Option.bind_eq_some_iff] at h
    obtain ⟨first, hfirst, others, hothers, heq⟩ := h
    cases heq
    rcases List.mem_cons.1 hb with rfl | hb
    · exact ⟨a, List.mem_cons_self, hfirst⟩
    · obtain ⟨c, hc, hcb⟩ := ih hothers hb
      exact ⟨c, List.mem_cons_of_mem _ hc, hcb⟩

/-! ## Steps one after the other -/

theorem instruction_ofInstruction (s : State) (i : Instruction) :
    (Step.ofInstruction o files s i).instruction = i := by
  unfold Step.ofInstruction
  split <;> rfl

theorem map_instruction_traceFrom (s : State) (is : List Instruction) :
    (traceFrom o files s is).map Step.instruction = is := by
  induction is generalizing s with
  | nil => rfl
  | cons i is ih => rw [traceFrom, List.map_cons, instruction_ofInstruction, ih]

theorem stateAfter_cons (s : State) (step : Step) (steps : List Step) :
    stateAfter s (step :: steps) = stateAfter step.state steps := by
  cases steps with
  | nil => rfl
  | cons next rest =>
    rw [stateAfter, stateAfter, List.getLast?_cons_cons,
      List.getLast?_eq_some_getLast (List.cons_ne_nil next rest)]
    rfl

theorem traceFrom_append (s : State) (is js : List Instruction) :
    traceFrom o files s (is ++ js) =
      traceFrom o files s is ++ traceFrom o files (stateAfter s (traceFrom o files s is)) js := by
  induction is generalizing s with
  | nil => rfl
  | cons i is ih =>
    rw [List.cons_append, traceFrom, traceFrom, ih, stateAfter_cons, List.cons_append]

/-- What each step keeps holds in every state that the steps come to. -/
theorem stateAfter_induction {P : State → Prop} {is : List Instruction}
    (hstep : ∀ s, ∀ i ∈ is, P s → P (Step.ofInstruction o files s i).state) {s : State} (hs : P s)
    {before after : List Step} (h : traceFrom o files s is = before ++ after) :
    P (stateAfter s before) := by
  induction before generalizing s is with
  | nil => exact hs
  | cons first rest ih =>
    cases is with
    | nil => cases h
    | cons i is =>
      obtain ⟨hfirst, hrest⟩ := List.cons.inj h
      rw [stateAfter_cons, ← hfirst]
      exact ih (fun s j hj => hstep s j (List.mem_cons_of_mem i hj)) (hstep s i List.mem_cons_self hs)
        hrest

/-- Each step is made in the state after those before it. -/
theorem eq_ofInstruction_of_traceFrom_eq {s : State} {is : List Instruction}
    {before after : List Step} {step : Step} (h : traceFrom o files s is = before ++ step :: after) :
    step = Step.ofInstruction o files (stateAfter s before) step.instruction := by
  induction before generalizing s is with
  | nil =>
    cases is with
    | nil => cases h
    | cons i is =>
      obtain ⟨hstep, -⟩ := List.cons.inj h
      rw [← hstep, instruction_ofInstruction]
      rfl
  | cons first rest ih =>
    cases is with
    | nil => cases h
    | cons i is =>
      obtain ⟨hfirst, hrest⟩ := List.cons.inj h
      rw [stateAfter_cons, ← hfirst]
      exact ih hrest

/-- Each instruction is compiled in a state in which all holds that each step keeps. -/
theorem exists_state_of_mem_traceFrom {P : State → Prop} {is : List Instruction}
    (hkeep : ∀ s, ∀ i ∈ is, P s → P (Step.ofInstruction o files s i).state) {s : State} (hs : P s)
    {step : Step} (hstep : step ∈ traceFrom o files s is) :
    ∃ t : State, P t ∧ step = Step.ofInstruction o files t step.instruction := by
  obtain ⟨before, after, hsplit⟩ := List.append_of_mem hstep
  exact ⟨_, stateAfter_induction hkeep hs hsplit, eq_ofInstruction_of_traceFrom_eq hsplit⟩

theorem mem_instructions_of_mem_trace {input : Text} {step : Step}
    (h : step ∈ trace o files input) : step.instruction ∈ instructions input := by
  have hmem := List.mem_map_of_mem (f := Step.instruction) h
  rwa [trace, map_instruction_traceFrom] at hmem

/-! ## Numbers of lines -/

/-- An instruction whose line is not told. -/
def Instruction.unnumbered (i : Instruction) : Instruction := { i with line := 0 }

def Step.unnumbered (step : Step) : Step := { step with instruction := step.instruction.unnumbered }

theorem ofInstruction_unnumbered (s : State) (i : Instruction) :
    Step.ofInstruction o files s i.unnumbered = (Step.ofInstruction o files s i).unnumbered := by
  have hcompile : s.compile o files i.unnumbered = s.compile o files i := rfl
  unfold Step.ofInstruction
  rw [hcompile]
  cases s.compile o files i <;> rfl

theorem traceFrom_unnumbered (s : State) (is : List Instruction) :
    traceFrom o files s (is.map Instruction.unnumbered) =
      (traceFrom o files s is).map Step.unnumbered := by
  induction is generalizing s with
  | nil => rfl
  | cons i is ih =>
    rw [List.map_cons, traceFrom, traceFrom, List.map_cons, ofInstruction_unnumbered, ← ih]
    rfl

theorem scriptOf_unnumbered (o : Options) (steps : List Step) :
    scriptOf o (steps.map Step.unnumbered) = scriptOf o steps := by
  have hlast : (steps.map Step.unnumbered).getLast?.map (·.state.usesContext) =
      steps.getLast?.map (·.state.usesContext) := by
    rw [List.getLast?_map, Option.map_map]
    rfl
  have hstatements : (steps.map Step.unnumbered).flatMap Step.statements =
      steps.flatMap Step.statements := by
    rw [List.flatMap_map]
    rfl
  have hskipped : ((steps.map Step.unnumbered).filter (·.lines.isNone)).length =
      (steps.filter (·.lines.isNone)).length := by
    rw [List.filter_map, List.length_map]
    rfl
  rw [scriptOf, hlast, hstatements, hskipped]
  rfl

end BuildScript
