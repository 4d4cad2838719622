import BuildScript.Proofs.Compile.Context

/-!
# Deliveries of a build file

`COPY` and `ADD` are one operation, which brings sources to a destination; they differ in what they do with
a source (`Instruction.sourceOf`). An instruction that is one of them either delivers in a state
(`State.Delivers`) or is left out (`exists_delivers`).

What a build file does is told of the instructions that compiling comes to, each in its state (`ComesTo`).
-/

namespace BuildScript

/-! ## Instructions in their states -/

/-- The instructions that compiling some of them from a state on comes to, each with the state that those
before it leave. -/
inductive ComesTo (o : Options) (files : FileView) :
    State → List Instruction → State → Instruction → Prop
  | head {s : State} {i : Instruction} {is : List Instruction} : ComesTo o files s (i :: is) s i
  | tail {s t : State} {i j : Instruction} {is : List Instruction}
    (h : ComesTo o files (Step.ofInstruction o files s j).state is t i) : ComesTo o files s (j :: is) t i

section ComesTo

variable {o : Options} {files : FileView} {s t : State} {i j : Instruction} {is : List Instruction}

theorem not_comesTo_nil : ¬ComesTo o files s [] t i := nofun

theorem comesTo_cons_iff :
    ComesTo o files s (j :: is) t i ↔
      t = s ∧ i = j ∨ ComesTo o files (Step.ofInstruction o files s j).state is t i := by
  constructor
  · intro h
    cases h with
    | head => exact .inl ⟨rfl, rfl⟩
    | tail h => exact .inr h
  · rintro (⟨rfl, rfl⟩ | h)
    · exact .head
    · exact .tail h

end ComesTo

/-! ## `COPY` and `ADD` -/

/-- What an instruction does with a source: `ADD` looks at its text, and `COPY` copies it. -/
def Instruction.sourceOf (i : Instruction) (w : Word) : Source :=
  if i.keyword = .add then .ofAdd w else .copied w

/-- Whether an instruction brings sources to a destination when it is compiled in a state. -/
structure State.Delivers (s : State) (i : Instruction) (d : Delivery) : Prop where
  keyword : i.keyword ∈ [.copy, .add]
  read : s.delivery? i.arguments = some d
  /-- The sources are not those of another build stage. -/
  stage : d.flags.fromStage = false

namespace Instruction

variable (i : Instruction)

theorem sourceOf_cases (w : Word) :
    i.sourceOf w = .copied w ∨ i.sourceOf w = .unpacked w ∨ ∃ url, i.sourceOf w = .fetched url := by
  rw [sourceOf]
  split
  · rcases Source.ofAdd_cases w with h | h | ⟨url, h, -⟩
    · exact .inl h
    · exact .inr (.inl h)
    · exact .inr (.inr ⟨url, h⟩)
  · exact .inl rfl

variable {i}

theorem copied?_sourceOf {w v : Word} :
    (i.sourceOf w).copied? = some v ↔ i.sourceOf w = .copied w ∧ v = w := by
  rcases i.sourceOf_cases w with h | h | ⟨url, h⟩
  · simp [h, Source.copied?, eq_comm]
  · simp [h, Source.copied?]
  · simp [h, Source.copied?]

theorem archive?_sourceOf {w v : Word} :
    (i.sourceOf w).archive? = some v ↔ i.sourceOf w = .unpacked w ∧ v = w := by
  rcases i.sourceOf_cases w with h | h | ⟨url, h⟩
  · simp [h, Source.archive?]
  · simp [h, Source.archive?, eq_comm]
  · simp [h, Source.archive?]

/-- A source is fetched if it is one of `ADD` and its text is a URL, and else it is not. -/
theorem sourceOf_ne_fetched_iff {w : Word} :
    (∀ url, i.sourceOf w ≠ .fetched url) ↔ (i.keyword = .add → ∀ t ∈ w.text?, Url.ofText? t = none) := by
  rw [sourceOf]
  split
  · next hadd =>
    unfold Source.ofAdd
    cases htext : w.text? with
    | none => simp
    | some t =>
      cases hurl : Url.ofText? t with
      | some url => simp [hadd, hurl]
      | none =>
        simp only [hurl]
        split <;> simp [hurl]
  · next hadd => simp [hadd]

/-- What is fetched is the URL that the text of a source is. -/
theorem exists_text_of_fetched {w : Word} {url : Url} (h : i.sourceOf w = .fetched url) :
    ∃ t, w.text? = some t ∧ Url.ofText? t = some url := by
  rw [sourceOf] at h
  split at h
  · rcases Source.ofAdd_cases w with heq | heq | ⟨_, heq, htext⟩
    · rw [heq] at h
      cases h
    · rw [heq] at h
      cases h
    · rw [heq] at h
      exact Source.fetched.inj h ▸ htext
  · cases h

end Instruction

namespace State

variable {s : State} {o : Options} {files : FileView} {i : Instruction} {d : Delivery}

theorem compile_eq_compileDelivery (h : i.keyword ∈ [.copy, .add]) :
    s.compile o files i = s.compileDelivery o files i.sourceOf i.arguments := by
  unfold compile Instruction.sourceOf
  generalize i.keyword = keyword at h
  cases keyword with
  | copy | add => rfl
  | _ => simp at h

theorem Delivers.compile_eq (h : s.Delivers i d) :
    s.compile o files i = some (d.compile o files s (d.sources.map i.sourceOf)) := by
  rw [compile_eq_compileDelivery h.keyword, compileDelivery, h.read]
  simp [h.stage]

theorem Delivers.ofInstruction_eq (h : s.Delivers i d) :
    Step.ofInstruction o files s i =
      ⟨i, some (d.compile o files s (d.sources.map i.sourceOf)).lines,
        (d.compile o files s (d.sources.map i.sourceOf)).state⟩ := by
  rw [Step.ofInstruction, h.compile_eq]

/-- `COPY` and `ADD` are left out if they do not deliver. -/
theorem compile_eq_none (hkeyword : i.keyword ∈ [.copy, .add]) (h : ∀ d, ¬s.Delivers i d) :
    s.compile o files i = none := by
  rw [compile_eq_compileDelivery hkeyword]
  cases hread : s.delivery? i.arguments with
  | none => simp [compileDelivery, hread]
  | some d =>
    cases hstage : d.flags.fromStage with
    | true => simp [compileDelivery, hread, hstage]
    | false => exact absurd ⟨hkeyword, hread, hstage⟩ (h d)

theorem exists_delivers (hkeyword : i.keyword ∈ [.copy, .add])
    (hlines : (Step.ofInstruction o files s i).lines ≠ none) : ∃ d, s.Delivers i d := by
  by_contra hnone
  apply hlines
  rw [Step.ofInstruction, compile_eq_none hkeyword fun d hd => hnone ⟨d, hd⟩]

end State

end BuildScript
