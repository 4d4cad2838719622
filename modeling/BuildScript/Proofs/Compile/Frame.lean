import BuildScript.Proofs.Compile.Blocks
import BuildScript.Proofs.Compile.Change

/-!
# What instructions change

An instruction changes one part of the state at most, and which one is told by its keyword (`State.Change`):
`WORKDIR` the working directory, `ENV` the variables that it binds, `USER` the user, and `COPY` and `ADD`
whether a line refers to the build context, which they never take back. One that is left out changes nothing,
and `ENV` records either all of its bindings or none (`frame_ofInstruction`).

So after any instructions a part of the state is what it was, unless an instruction that was compiled is of
the kind that changes it (`same_stateAfter`).
-/

namespace BuildScript

/-- The parts of a state that instructions change. -/
inductive State.Part where
  | workdir
  | env (name : Text)
  | user
  | usesContext

/-- Whether a part is the same in two states. -/
def State.Part.Same : State.Part → State → State → Prop
  | .workdir, s, t => t.workdir = s.workdir
  | .env name, s, t => t.env.get? name = s.env.get? name
  | .user, s, t => t.user = s.user
  | .usesContext, s, t => t.usesContext = s.usesContext

theorem State.Part.Same.trans {part : Part} {s t u : State} (hst : part.Same s t) (htu : part.Same t u) :
    part.Same s u := by
  cases part <;> exact Eq.trans htu hst

/-- Whether an instruction is of the kind that changes a part. -/
def Instruction.MayChange (escape : Char) (i : Instruction) : State.Part → Prop
  | .workdir => i.keyword = .workdir
  | .env name => i.keyword = .env ∧
      ∃ bindings, State.envBindings? escape i.arguments = some bindings ∧ name ∈ bindings.map Prod.fst
  | .user => i.keyword = .user
  | .usesContext => i.keyword ∈ [.copy, .add]

/-! ## Variables -/

namespace Environment

theorem lookup_bind (env : Environment) (bindings : List Binding) (name : Text) :
    (env.bind bindings).lookup name = (bindings.lookup name).map env.expand := by
  induction bindings with
  | nil => rfl
  | cons b rest ih =>
    have hbind : env.bind (b :: rest) = (b.1, env.expand b.2) :: env.bind rest := rfl
    rw [hbind, List.lookup_cons, List.lookup_cons, ih]
    split <;> rfl

/-- A variable is what it was bound to last, or what it was before. -/
theorem get?_record (env : Environment) (bindings : List Binding) (name : Text) :
    (env.record bindings).get? name =
      ((bindings.reverse.lookup name).map env.expand).or (env.get? name) := by
  have hreverse : (env.bind bindings).reverse = env.bind bindings.reverse := List.map_reverse.symm
  rw [record_eq_append, get?, List.lookup_append, hreverse, lookup_bind]
  rfl

theorem get?_record_of_notMem {env : Environment} {bindings : List Binding} {name : Text}
    (h : name ∉ bindings.map Prod.fst) : (env.record bindings).get? name = env.get? name := by
  have hnone : bindings.reverse.lookup name = none := by
    rw [List.lookup_eq_none_iff]
    intro b hb
    rw [bne_iff_ne]
    rintro rfl
    exact h (List.mem_map_of_mem (List.mem_reverse.1 hb))
  rw [get?_record, hnone]
  rfl

end Environment

/-! ## One instruction -/

namespace State

variable {s : State} {o : Options} {files : FileView} {i : Instruction}

namespace Change

variable {t : State}

theorem same (h : s.Change i t) {part : Part} (hpart : ¬i.MayChange s.escape part) : part.Same s t := by
  cases h with
  | workdir h =>
    cases part with
    | workdir => exact absurd h hpart
    | _ => rfl
  | env h hbindings =>
    cases part with
    | env name =>
      exact Environment.get?_record_of_notMem fun hname => hpart ⟨h, _, hbindings, hname⟩
    | _ => rfl
  | invoker h | user h =>
    cases part with
    | user => exact absurd h hpart
    | _ => rfl
  | usesContext refers h =>
    cases part with
    | usesContext => exact absurd h hpart
    | _ => rfl
  | keep h => cases part <;> rfl

theorem eq (h : s.Change i t) (hkeyword : i.keyword ∉ [.workdir, .env, .user, .copy, .add]) : t = s := by
  cases h with
  | workdir h | env h _ | invoker h | user h => simp [h] at hkeyword
  | usesContext _ h =>
    have hmem : i.keyword ∈ [.workdir, .env, .user] ++ [.copy, .add] := List.mem_append_right _ h
    exact absurd hmem hkeyword
  | keep => rfl

theorem get?_env (h : s.Change i t) (hkeyword : i.keyword = .env) :
    ∃ bindings, envBindings? s.escape i.arguments = some bindings ∧
      ∀ name, t.env.get? name = ((bindings.reverse.lookup name).map s.expand).or (s.env.get? name) := by
  cases h with
  | env _ hbindings => exact ⟨_, hbindings, s.env.get?_record _⟩
  | workdir h | invoker h | user h => cases hkeyword.symm.trans h
  | usesContext _ h => simp [hkeyword] at h
  | keep h => simp [hkeyword] at h

end Change

/-- An instruction keeps the parts of the state that are not of its kind, and all of them if it is left out. -/
theorem same_ofInstruction {part : Part}
    (h : (Step.ofInstruction o files s i).lines ≠ none → ¬i.MayChange s.escape part) :
    part.Same s (Step.ofInstruction o files s i).state := by
  cases hlines : (Step.ofInstruction o files s i).lines with
  | none =>
    rw [state_ofInstruction_of_none hlines]
    cases part <;> rfl
  | some lines => exact (change_ofInstruction hlines).same (h (by simp [hlines]))

end State

/-! ## Any number of instructions -/

variable {o : Options} {files : FileView} {s : State}

/-- A part of the state that no instruction of its kind was compiled for is what it was. -/
theorem same_stateAfter {part : State.Part} {is : List Instruction} {before after : List Step}
    (h : traceFrom o files s is = before ++ after)
    (hkinds : ∀ step ∈ before, step.lines ≠ none → ¬step.instruction.MayChange s.escape part) :
    part.Same s (stateAfter s before) := by
  induction before generalizing s is with
  | nil => cases part <;> rfl
  | cons first rest ih =>
    cases is with
    | nil => cases h
    | cons i is =>
      obtain ⟨rfl, hrest⟩ := List.cons.inj h
      obtain ⟨hfirst, hothers⟩ := List.forall_mem_cons.1 hkinds
      rw [instruction_ofInstruction] at hfirst
      rw [stateAfter_cons]
      refine (State.same_ofInstruction hfirst).trans (ih hrest ?_)
      rwa [(extends_ofInstruction s i).escape]

/-- An instruction that is left out leaves the state as it is. One that is compiled keeps the escape character,
and changes only the working directory, the variables that it binds, the user, or whether a line refers to the
build context, if its keyword is `WORKDIR`, `ENV`, `USER`, or `COPY` or `ADD`; with any other keyword it leaves
the state as it is, too. `ENV` records all of its bindings: each name has the value that it is bound to last,
expanded before the instruction. What no instruction of a kind was compiled for is as it was after any number
of instructions, and a reference to the build context is never taken back. -/
theorem frame_ofInstruction (o : Options) (files : FileView) (s : State) (i : Instruction) :
    ((Step.ofInstruction o files s i).lines = none → (Step.ofInstruction o files s i).state = s) ∧
    (Step.ofInstruction o files s i).state.escape = s.escape ∧
    (∀ part : State.Part, ¬i.MayChange s.escape part →
      part.Same s (Step.ofInstruction o files s i).state) ∧
    (i.keyword ∉ [.workdir, .env, .user, .copy, .add] → (Step.ofInstruction o files s i).state = s) ∧
    (∀ lines, i.keyword = .env → (Step.ofInstruction o files s i).lines = some lines →
      ∃ bindings, State.envBindings? s.escape i.arguments = some bindings ∧
        ∀ name, (Step.ofInstruction o files s i).state.env.get? name =
          ((bindings.reverse.lookup name).map s.expand).or (s.env.get? name)) ∧
    ∀ is before after, traceFrom o files s is = before ++ after →
      (∀ part : State.Part,
        (∀ step ∈ before, step.lines ≠ none → ¬step.instruction.MayChange s.escape part) →
        part.Same s (stateAfter s before)) ∧
      (s.usesContext = true → (stateAfter s before).usesContext = true) := by
  refine ⟨State.state_ofInstruction_of_none, (extends_ofInstruction s i).escape,
    fun part hpart => State.same_ofInstruction fun _ => hpart, ?_, ?_, ?_⟩
  · intro hkeyword
    cases hlines : (Step.ofInstruction o files s i).lines with
    | none => exact State.state_ofInstruction_of_none hlines
    | some lines => exact (State.change_ofInstruction hlines).eq hkeyword
  · intro lines hkeyword hlines
    exact (State.change_ofInstruction hlines).get?_env hkeyword
  · intro is before after htrace
    exact ⟨fun part hkinds => same_stateAfter htrace hkinds, (extends_stateAfter htrace).usesContext⟩

/-- A binding without a name, behind one that is in order: nothing is recorded. -/
example : (Step.ofInstruction {} (fun _ => none) (.initial '\\')
    ⟨.env, [], "A=1 2=3".toList, 1, []⟩).lines = none := by
  decide +kernel

end BuildScript
