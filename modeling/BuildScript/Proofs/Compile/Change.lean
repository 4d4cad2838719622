import BuildScript.Proofs.Compile.Accepted
import BuildScript.Proofs.Compile.Substitution
import BuildScript.Proofs.Compile.Trace

/-!
# What an instruction does to the state

All that an instruction may do to the state is told once, by its keyword (`State.Change`). What is to hold of
every state is shown by cases over these changes (`ofInstruction_induction`); an instruction that is left out
changes nothing.
-/

namespace BuildScript.State

variable {s : State} {o : Options} {files : FileView} {i : Instruction} {raw : Text} {outcome : Outcome}

/-- The states that an instruction may come to, if it is compiled. -/
inductive Change (s : State) (i : Instruction) : State → Prop
  | workdir (h : i.keyword = .workdir) :
    Change s i { s with
      workdir := some (s.resolve (s.expand (Word.join [' '] (Word.lexAll s.escape i.arguments)))) }
  | env {bindings : List Binding} (h : i.keyword = .env)
    (hbindings : envBindings? s.escape i.arguments = some bindings) :
    Change s i { s with env := s.env.record bindings }
  | invoker (h : i.keyword = .user) : Change s i { s with user := none }
  | user {spec : Word} (h : i.keyword = .user) (hspec : spec ∈ Word.lexAll s.escape i.arguments)
    (hempty : (userOf (s.expand spec)).isEmpty = false) (hroot : isRoot (userOf (s.expand spec)) = false) :
    Change s i { s with user := some (userOf (s.expand spec)) }
  | usesContext (refers : Bool) (h : i.keyword ∈ [.copy, .add]) :
    Change s i { s with usesContext := s.usesContext || refers }
  | keep (h : i.keyword ∉ [.workdir, .env, .user, .copy, .add]) : Change s i s

/-! ## One lemma for each kind of instruction -/

theorem change_compileWorkdir (h : i.keyword = .workdir)
    (hc : s.compileWorkdir i.arguments = some outcome) : s.Change i outcome.state := by
  obtain ⟨-, rfl⟩ := compileWorkdir_eq_some_iff.1 hc
  exact .workdir h

theorem change_compileUser (h : i.keyword = .user) (hc : s.compileUser i.arguments = some outcome) :
    s.Change i outcome.state := by
  obtain ⟨spec, others, hwords, hempty, ⟨-, rfl⟩ | ⟨hroot, rfl⟩⟩ := compileUser_eq_some_iff.1 hc
  · exact .invoker h
  · exact .user h (hwords ▸ List.mem_cons_self) hempty hroot

theorem change_compileDelivery {kind : Word → Source} (h : i.keyword ∈ [.copy, .add])
    (hc : s.compileDelivery o files kind i.arguments = some outcome) : s.Change i outcome.state := by
  obtain ⟨d, -, -, rfl⟩ := compileDelivery_eq_some_iff.1 hc
  exact .usesContext _ h

/-- Most instructions have one line, if any, and leave the state as it is. -/
theorem state_ofLine {p : Prop} [Decidable p] {line : Text}
    (hc : (if p then none else some (Outcome.ofLine line s)) = some outcome) : outcome.state = s := by
  split at hc <;> cases hc
  rfl

/-! ## All instructions -/

theorem change_compile (hc : s.compile o files i = some outcome) : s.Change i outcome.state := by
  unfold State.compile at hc
  cases hkeyword : i.keyword <;> rw [hkeyword] at hc
  case workdir => exact change_compileWorkdir hkeyword hc
  case env =>
    obtain ⟨bindings, hbindings, rfl⟩ := Option.map_eq_some_iff.1 hc
    exact .env hkeyword hbindings
  case user => exact change_compileUser hkeyword hc
  case copy | add => exact change_compileDelivery (by simp [hkeyword]) hc
  case unknown => cases hc
  case arg => exact (compileArg_eq_some_iff.1 hc).2.2 ▸ .keep (by simp [hkeyword])
  case «from» | run | volume | cmd | entrypoint =>
    have hstate : outcome.state = s := state_ofLine hc
    exact hstate ▸ .keep (by simp [hkeyword])
  case label | maintainer | expose =>
    cases hc
    exact .keep (by simp [hkeyword])

/-- An instruction that is not left out has an outcome. -/
theorem exists_compile_of_lines {lines : List Text}
    (h : (Step.ofInstruction o files s i).lines = some lines) :
    ∃ outcome, s.compile o files i = some outcome ∧ outcome.lines = lines ∧
      (Step.ofInstruction o files s i).state = outcome.state := by
  unfold Step.ofInstruction at h ⊢
  cases hc : s.compile o files i with
  | some outcome =>
    rw [hc] at h
    exact ⟨outcome, rfl, Option.some.inj h, rfl⟩
  | none =>
    rw [hc] at h
    cases h

theorem change_ofInstruction {lines : List Text}
    (h : (Step.ofInstruction o files s i).lines = some lines) :
    s.Change i (Step.ofInstruction o files s i).state := by
  obtain ⟨outcome, hcompile, -, hstate⟩ := exists_compile_of_lines h
  exact hstate ▸ change_compile hcompile

theorem state_ofInstruction_of_none (h : (Step.ofInstruction o files s i).lines = none) :
    (Step.ofInstruction o files s i).state = s := by
  unfold Step.ofInstruction at h ⊢
  split
  · next hc =>
    rw [hc] at h
    cases h
  · rfl

/-- What every change keeps is kept by an instruction. -/
theorem ofInstruction_induction {P : State → Prop} (hs : P s) (hchange : ∀ t, s.Change i t → P t) :
    P (Step.ofInstruction o files s i).state := by
  cases hlines : (Step.ofInstruction o files s i).lines with
  | none => exact (state_ofInstruction_of_none hlines).symm ▸ hs
  | some lines => exact hchange _ (change_ofInstruction hlines)

end BuildScript.State
