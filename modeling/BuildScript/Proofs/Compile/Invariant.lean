import BuildScript.Proofs.Compile.Change

/-!
# What holds of every state

The words that a state keeps refer to variables by names that are ones (`State.Named`): so do the words
of the build file, and an instruction makes its words of these. All instructions of a build file are
compiled in such a state (`exists_state_of_mem_trace`).
-/

namespace BuildScript

/-- Whether the words of a state have names only. -/
structure State.Named (s : State) : Prop where
  workdir : ∀ w, s.workdir = some w → w.named = true
  env : s.env.Named

namespace State

variable {s : State}

theorem named_initial (escape : Char) : (initial escape).Named :=
  ⟨fun _ hw => (nomatch hw), fun _ hb => (nomatch hb)⟩

namespace Named

theorem workingDir (h : s.Named) : s.workingDir.named = true := by
  unfold State.workingDir
  cases hdir : s.workdir with
  | none => exact Word.named_literal _
  | some w => exact h.workdir w hdir

theorem expand (h : s.Named) {w : Word} (hw : w.named = true) : (s.expand w).named = true :=
  h.env.expand hw

theorem resolve (h : s.Named) {path : Word} (hpath : path.named = true) :
    (s.resolve path).named = true := by
  have hjoined : (s.joined path).named = true := by
    refine of_joined (P := fun w => w.named = true) (fun _ => hpath) ?_
    rw [Word.named_append, Word.named_withSlash h.workingDir, hpath]
    rfl
  rcases s.resolve_cases path with ⟨t, -, heq⟩ | ⟨-, heq⟩
  · rw [heq]
    exact Word.named_literal _
  · rw [heq]
    exact hjoined

end Named

theorem named_argumentWords (s : State) (raw : Text) : ∀ w ∈ s.argumentWords raw, w.named = true := by
  intro w hw
  unfold argumentWords at hw
  split at hw
  · obtain ⟨t, -, rfl⟩ := List.mem_map.1 hw
    exact Word.named_literal t
  · exact Word.named_lexAll s.escape raw w hw

end State

/-! ## Arguments of `COPY` and `ADD` -/

/-- Whether the words of flags have names only. -/
structure DeliveryFlags.Named (flags : DeliveryFlags) : Prop where
  owner : ∀ w, flags.owner = some w → w.named = true
  mode : ∀ w, flags.mode = some w → w.named = true

structure Delivery.Named (d : Delivery) : Prop where
  flags : d.flags.Named
  sources : ∀ w ∈ d.sources, w.named = true
  dest : d.dest.named = true

namespace State.Named

variable {s : State}

theorem setFlag (h : s.Named) {flags : DeliveryFlags} (hflags : flags.Named) (flag : Text) :
    (s.setFlag flags flag).Named := by
  have hword : ∀ value, (s.expand (Word.lex s.escape value)).named = true := fun value =>
    h.expand (Word.named_lex s.escape value)
  unfold State.setFlag
  simp only
  split
  · exact ⟨fun w hw => Option.some.inj hw ▸ hword _, hflags.mode⟩
  · split
    · exact ⟨hflags.owner, fun w hw => Option.some.inj hw ▸ hword _⟩
    · split
      · exact ⟨hflags.owner, hflags.mode⟩
      · exact hflags

theorem readFlags (h : s.Named) {flags : DeliveryFlags} (hflags : flags.Named) (raw : Text) :
    (s.readFlags flags raw).1.Named := by
  fun_induction State.readFlags s flags raw with
  | case1 flags rest ih => exact ih (h.setFlag hflags _)
  | case2 flags raw hnot => exact hflags

theorem delivery? (h : s.Named) {raw : Text} {d : Delivery} (hd : s.delivery? raw = some d) :
    d.Named := by
  have hnone : DeliveryFlags.Named {} := ⟨fun _ hw => (nomatch hw), fun _ hw => (nomatch hw)⟩
  obtain ⟨sources, dest, -, hwords, rfl⟩ := delivery?_eq_some_iff_readFlags.1 hd
  have hall : ∀ w ∈ sources ++ [dest], w.named = true := fun w hw =>
    s.named_argumentWords _ w (hwords ▸ hw)
  refine ⟨h.readFlags hnone _, ?_, ?_⟩
  · intro w hw
    obtain ⟨v, hv, rfl⟩ := List.mem_map.1 hw
    exact h.expand (hall v (List.mem_append_left _ hv))
  · refine destination_induction (P := fun w => w.named = true) (h.resolve (h.expand (hall dest (by simp)))) ?_
    exact fun w hw => Word.named_withSlash hw

/-! ## Every state -/

theorem of_eq (h : s.Named) {t : State} (hworkdir : t.workdir = s.workdir) (henv : t.env = s.env) :
    t.Named :=
  ⟨fun w hw => h.workdir w (hworkdir ▸ hw), henv ▸ h.env⟩

/-- Instructions keep the words of the state named. -/
theorem change (h : s.Named) {i : Instruction} {t : State} (hc : s.Change i t) : t.Named := by
  cases hc with
  | workdir hkeyword =>
    refine ⟨?_, h.env⟩
    intro w hw
    rw [← Option.some.inj hw]
    exact h.resolve (h.expand (Word.named_join [' '] (Word.named_lexAll s.escape i.arguments)))
  | env hkeyword hbindings =>
    exact ⟨h.workdir, h.env.record fun b hb => (named_envBindings? hbindings b hb).2⟩
  | invoker | user | usesContext => exact h.of_eq rfl rfl
  | keep hkeyword => exact h

end State.Named

variable {o : Options} {files : FileView} {s : State} {step : Step}

theorem State.Named.ofInstruction (h : s.Named) (i : Instruction) :
    (Step.ofInstruction o files s i).state.Named :=
  State.ofInstruction_induction h fun _ => h.change

/-- Each instruction of a build file is compiled in a state whose words have names only. -/
theorem exists_state_of_mem_trace {input : Text} (hstep : step ∈ trace o files input) :
    ∃ t : State, t.Named ∧ step = Step.ofInstruction o files t step.instruction :=
  exists_state_of_mem_traceFrom (fun _ i _ ht => ht.ofInstruction i) (State.named_initial _) hstep

end BuildScript
