import BuildScript.Proofs.Compile.Deliveries

/-!
# What embedding depends on and what it touches

Compiling asks for files only to embed them, and only for those of sources of `COPY` and `ADD` that are copied
and whose text is known (`MayEmbed`); so the script is told by what these files hold. Two runs on one build
file that embed different files differ in nothing but the lines of `COPY` and `ADD` and in whether the build
context is referred to (`Step.Alike`), and where no file is embedded the script is the one without embedding
(`compile_embed`).
-/

namespace BuildScript

/-- A state in which another thing is noted about the build context. -/
def State.noting (s : State) (uses : Bool) : State := { s with usesContext := uses }

/-- Whether two states differ at most in what is noted about the build context. -/
def State.Alike (s t : State) : Prop := ∃ uses, t = s.noting uses

/-- Whether two steps are of one instruction and differ at most in the lines of `COPY` and `ADD` and in what
is noted about the build context. -/
structure Step.Alike (a b : Step) : Prop where
  instruction : b.instruction = a.instruction
  skipped : b.lines.isNone = a.lines.isNone
  statements : a.instruction.keyword ∉ [.copy, .add] → b.statements = a.statements
  state : a.state.Alike b.state

/-- Whether a path is that of a file which embedding may ask for: of a source that is copied, and whose text
is known and has no pattern characters. Which sources there are does not depend on files, so they are those of
the run without any. -/
def MayEmbed (o : Options) (input : Text) (path : Text) : Prop :=
  ∃ s i d source text,
    ComesTo { o with embed := false } (fun _ => none) (.initial (escapeOf input)) (instructions input) s i ∧
    s.Delivers i d ∧ source ∈ d.sources ∧ i.sourceOf source = .copied source ∧
    source.text? = some text ∧ Shell.hasGlob text = false ∧ path = sourcePath o.contextDir text

/-! ## States that are alike -/

namespace State

variable (s : State) (uses : Bool)

theorem escape_noting : (s.noting uses).escape = s.escape := rfl

theorem readFlags_noting (flags : DeliveryFlags) (raw : Text) :
    (s.noting uses).readFlags flags raw = s.readFlags flags raw := by
  fun_induction State.readFlags s flags raw with
  | case1 flags rest ih =>
    rw [State.readFlags]
    exact ih
  | case2 flags raw hraw =>
    rw [State.readFlags]
    exact hraw

theorem delivery?_noting (raw : Text) : (s.noting uses).delivery? raw = s.delivery? raw := by
  unfold delivery?
  rw [readFlags_noting]
  rfl

variable {s} {t : State} {uses}

theorem Alike.refl (s : State) : s.Alike s := ⟨s.usesContext, rfl⟩

theorem Alike.symm (h : s.Alike t) : t.Alike s := by
  obtain ⟨uses, rfl⟩ := h
  exact ⟨s.usesContext, rfl⟩

theorem Alike.delivers (h : s.Alike t) {i : Instruction} {d : Delivery} (hd : s.Delivers i d) :
    t.Delivers i d := by
  obtain ⟨uses, rfl⟩ := h
  exact ⟨hd.keyword, (delivery?_noting s uses _).trans hd.read, hd.stage⟩

end State

/-- An outcome in whose state another thing is noted about the build context. -/
def Outcome.noting (outcome : Outcome) (uses : Bool) : Outcome :=
  { outcome with state := outcome.state.noting uses }

namespace State

variable {s t : State} {o o' : Options} {files files' : FileView} {i : Instruction}

theorem compileEnv_noting (uses : Bool) (raw : Text) :
    (s.noting uses).compileEnv raw = (s.compileEnv raw).map (·.noting uses) := by
  rw [compileEnv, compileEnv, Option.map_map]
  rfl

theorem compileArg_noting (uses : Bool) (raw : Text) :
    (s.noting uses).compileArg raw = (s.compileArg raw).map (·.noting uses) := by
  have hline : (s.noting uses).argLine? = s.argLine? := rfl
  rw [compileArg, compileArg, hline, escape_noting]
  split <;> rfl

theorem compileWorkdir_noting (uses : Bool) (raw : Text) :
    (s.noting uses).compileWorkdir raw = (s.compileWorkdir raw).map (·.noting uses) := by
  simp only [compileWorkdir, apply_ite (Option.map fun outcome : Outcome => outcome.noting uses)]
  rfl

theorem compileUser_noting (uses : Bool) (raw : Text) :
    (s.noting uses).compileUser raw = (s.compileUser raw).map (·.noting uses) := by
  rw [compileUser, compileUser, escape_noting]
  cases Word.lexAll s.escape raw with
  | nil => rfl
  | cons spec others =>
    simp only [apply_ite (Option.map fun outcome : Outcome => outcome.noting uses)]
    rfl

theorem Alike.not_delivers (h : s.Alike t) (hs : ∀ d, ¬s.Delivers i d) : ∀ d, ¬t.Delivers i d :=
  fun d hd => hs d (h.symm.delivers hd)

/-- What is noted about the build context plays no part in an instruction that does not deliver, and no file
does. -/
theorem compile_noting (o o' : Options) (files files' : FileView) (h : ∀ d, ¬s.Delivers i d)
    (uses : Bool) :
    (s.noting uses).compile o' files' i = (s.compile o files i).map (·.noting uses) := by
  by_cases hkeyword : i.keyword ∈ [.copy, .add]
  · rw [compile_eq_none hkeyword h, compile_eq_none hkeyword (Alike.not_delivers ⟨uses, rfl⟩ h)]
    rfl
  · have hline : ∀ (p : Prop) [Decidable p] (line : Text),
        (if p then none else some (Outcome.ofLine line (s.noting uses))) =
          (if p then none else some (Outcome.ofLine line s)).map (·.noting uses) := by
      intro p _ line
      split <;> rfl
    unfold compile
    generalize i.keyword = keyword at hkeyword
    cases keyword with
    | copy | add => simp at hkeyword
    | «from» | run | volume | cmd | entrypoint => exact hline _ _
    | workdir => exact compileWorkdir_noting uses _
    | env => exact compileEnv_noting uses _
    | arg => exact compileArg_noting uses _
    | user => exact compileUser_noting uses _
    | label | maintainer | expose | unknown => rfl

/-- Instructions in states that are alike come to steps that are. -/
theorem Alike.ofInstruction (h : s.Alike t) (i : Instruction) :
    (Step.ofInstruction o files s i).Alike (Step.ofInstruction o' files' t i) := by
  by_cases hdelivers : ∃ d, s.Delivers i d
  · obtain ⟨d, hd⟩ := hdelivers
    rw [hd.ofInstruction_eq, (h.delivers hd).ofInstruction_eq]
    obtain ⟨uses, rfl⟩ := h
    exact ⟨rfl, rfl, fun hkeyword => absurd hd.keyword hkeyword, _, rfl⟩
  · obtain ⟨uses, rfl⟩ := h
    have hcompile := compile_noting o o' files files' (not_exists.1 hdelivers) uses
    rw [Step.ofInstruction, Step.ofInstruction, hcompile]
    cases s.compile o files i with
    | none => exact ⟨rfl, rfl, fun _ => rfl, uses, rfl⟩
    | some outcome => exact ⟨rfl, rfl, fun _ => rfl, uses, rfl⟩

end State

/-! ## Runs that are alike -/

section Runs

variable {o o' : Options} {files files' : FileView} {s t u : State} {i : Instruction}

theorem forall₂_traceFrom (h : s.Alike t) (is : List Instruction) :
    List.Forall₂ Step.Alike (traceFrom o files s is) (traceFrom o' files' t is) := by
  induction is generalizing s t with
  | nil => exact .nil
  | cons i is ih => exact .cons (h.ofInstruction i) (ih (h.ofInstruction i).state)

theorem alike_stateAfter (h : s.Alike t) {steps steps' : List Step}
    (hsteps : List.Forall₂ Step.Alike steps steps') : (stateAfter s steps).Alike (stateAfter t steps') := by
  induction hsteps generalizing s t with
  | nil => exact h
  | cons hstep _ ih =>
    rw [stateAfter_cons, stateAfter_cons]
    exact ih hstep.state

theorem length_skipped_eq {steps steps' : List Step} (hsteps : List.Forall₂ Step.Alike steps steps') :
    (steps'.filter (·.lines.isNone)).length = (steps.filter (·.lines.isNone)).length := by
  induction hsteps with
  | nil => rfl
  | cons hstep _ ih =>
    rw [List.filter_cons, List.filter_cons, hstep.skipped]
    split
    · rw [List.length_cons, List.length_cons, ih]
    · exact ih

/-- Runs that are alike come to the same instructions, in states that are alike. -/
theorem ComesTo.exists_alike (o' : Options) (files' : FileView) {is : List Instruction}
    (h : ComesTo o files s is u i) (ht : s.Alike t) :
    ∃ v, u.Alike v ∧ ComesTo o' files' t is v i := by
  induction h generalizing t with
  | head => exact ⟨t, ht, .head⟩
  | tail _ ih =>
    obtain ⟨v, hv, hcomes⟩ := ih (ht.ofInstruction _).state
    exact ⟨v, hv, .tail hcomes⟩

end Runs

/-! ## Files that are asked for -/

theorem embedPath?_eq_some_iff {o : Options} {source : Word} {path : Text} :
    embedPath? o source = some path ↔ o.embed = true ∧
      ∃ text, source.text? = some text ∧ Shell.hasGlob text = false ∧ path = sourcePath o.contextDir text := by
  unfold embedPath?
  cases o.embed with
  | false => simp
  | true =>
    simp only [if_true, Option.bind_eq_some_iff, true_and]
    constructor
    · rintro ⟨text, htext, hpath⟩
      split at hpath
      · cases hpath
      · next hglob => exact ⟨text, htext, by simpa using hglob, (Option.some.inj hpath).symm⟩
    · rintro ⟨text, htext, hglob, rfl⟩
      exact ⟨text, htext, by simp [hglob]⟩

namespace Delivery

variable {d : Delivery} {o : Options} {b : Bool} {files files' : FileView} {s : State}

/-- What a source is embedded as is told by the file at its path. -/
theorem embedded?_congr {source : Word}
    (h : ∀ path, embedPath? o source = some path → files path = files' path) :
    d.embedded? o files source = d.embedded? o files' source := by
  unfold embedded?
  cases hpath : embedPath? o source with
  | none => rfl
  | some path => simp [h path hpath]

/-- A source whose file cannot be read is not embedded. -/
theorem embedded?_eq_none {source : Word}
    (h : ∀ path, embedPath? o source = some path → files path = none) :
    d.embedded? o files source = none := by
  unfold embedded?
  cases hpath : embedPath? o source with
  | none => rfl
  | some path => simp [h path hpath]

/-- A delivery for which the same sources are embedded, in the same way, comes to the same. -/
theorem compile_congr {sources : List Source}
    (h : ∀ w, .copied w ∈ sources →
      d.embedded? o files w = d.embedded? { o with embed := b } files' w) :
    d.compile { o with embed := b } files' s sources = d.compile o files s sources := by
  have hfiles : (sources.filterMap Source.copied?).map (fun w => (w, d.embedded? o files w)) =
      (sources.filterMap Source.copied?).map
        fun w => (w, d.embedded? { o with embed := b } files' w) := by
    apply List.map_congr_left
    intro w hw
    obtain ⟨source, hsource, hcopied⟩ := List.mem_filterMap.1 hw
    cases source with
    | copied v =>
      obtain rfl := Option.some.inj hcopied
      rw [h _ hsource]
    | _ => cases hcopied
  simp only [compile, hfiles]
  rfl

end Delivery

/-- Whether an instruction embeds the same of its sources, in the same way, with other options and other
files. -/
def State.EmbedsAlike (s : State) (o o' : Options) (files files' : FileView) (i : Instruction) : Prop :=
  ∀ d, s.Delivers i d → ∀ source ∈ d.sources, i.sourceOf source = .copied source →
    d.embedded? o files source = d.embedded? o' files' source

section Congruence

variable {o : Options} {b : Bool} {files files' : FileView} {s t : State} {i : Instruction} {input : Text}

theorem State.compile_eq_of_not_delivers (o o' : Options) (files files' : FileView)
    (h : ∀ d, ¬s.Delivers i d) : s.compile o' files' i = s.compile o files i :=
  (compile_noting o o' files files' h s.usesContext).trans
    (compile_noting o o files files h s.usesContext).symm

theorem ofInstruction_congr (h : s.EmbedsAlike o { o with embed := b } files files' i) :
    Step.ofInstruction { o with embed := b } files' s i = Step.ofInstruction o files s i := by
  by_cases hdelivers : ∃ d, s.Delivers i d
  · obtain ⟨d, hd⟩ := hdelivers
    have hcompile : d.compile { o with embed := b } files' s (d.sources.map i.sourceOf) =
        d.compile o files s (d.sources.map i.sourceOf) := by
      apply Delivery.compile_congr
      intro w hw
      obtain ⟨source, hsource, hcopied⟩ := List.mem_map.1 hw
      have hpick : (i.sourceOf source).copied? = some w := by rw [hcopied]; rfl
      obtain ⟨hcopied, rfl⟩ := Instruction.copied?_sourceOf.1 hpick
      exact h d hd _ hsource hcopied
    rw [hd.ofInstruction_eq, hd.ofInstruction_eq, hcompile]
  · rw [Step.ofInstruction, Step.ofInstruction,
      State.compile_eq_of_not_delivers o _ files _ (not_exists.1 hdelivers)]

theorem traceFrom_congr {is : List Instruction}
    (h : ∀ t i, ComesTo o files s is t i → t.EmbedsAlike o { o with embed := b } files files' i) :
    traceFrom { o with embed := b } files' s is = traceFrom o files s is := by
  induction is generalizing s with
  | nil => rfl
  | cons i is ih =>
    rw [traceFrom, traceFrom, ofInstruction_congr (h s i .head), ih fun t j hcomes => h t j (.tail hcomes)]

theorem compile_congr
    (h : ∀ t i, ComesTo o files (.initial (escapeOf input)) (instructions input) t i →
      t.EmbedsAlike o { o with embed := b } files files' i) :
    compile { o with embed := b } files' input = compile o files input := by
  rw [compile_eq_scriptOf, compile_eq_scriptOf, trace, trace, traceFrom_congr h]
  rfl

/-- Whatever files there are, a run asks only for those that embedding may ask for. -/
theorem mayEmbed_of_comesTo {d : Delivery} {source : Word} {path : Text}
    (hcomes : ComesTo o files (.initial (escapeOf input)) (instructions input) t i) (hd : t.Delivers i d)
    (hsource : source ∈ d.sources) (hcopied : i.sourceOf source = .copied source)
    (hpath : embedPath? o source = some path) : MayEmbed o input path := by
  obtain ⟨v, hv, hplain⟩ :=
    hcomes.exists_alike { o with embed := false } (fun _ => none) (.refl _)
  obtain ⟨-, text, htext, hglob, rfl⟩ := embedPath?_eq_some_iff.1 hpath
  exact ⟨v, i, d, source, text, hplain, hv.delivers hd, hsource, hcopied, htext, hglob, rfl⟩

theorem compile_eq_of_agree (h : ∀ path, MayEmbed o input path → files path = files' path) :
    compile o files' input = compile o files input :=
  compile_congr (b := o.embed) fun _ _ hcomes _ hd _ hsource hcopied =>
    Delivery.embedded?_congr fun path hpath =>
      h path (mayEmbed_of_comesTo hcomes hd hsource hcopied hpath)

theorem compile_eq_of_unreadable (h : ∀ path, MayEmbed o input path → files path = none) :
    compile { o with embed := false } files' input = compile o files input := by
  apply compile_congr
  intro t i hcomes d hd source hsource hcopied
  have hnone : d.embedded? o files source = none := Delivery.embedded?_eq_none fun path hpath =>
    h path (mayEmbed_of_comesTo hcomes hd hsource hcopied hpath)
  rw [hnone, d.embedded?_of_embed_eq_false rfl]

theorem compile_eq_of_embed_eq_false (h : o.embed = false) :
    compile o files' input = compile o files input :=
  compile_congr (b := o.embed) fun _ _ _ d _ source _ _ => by
    rw [d.embedded?_of_embed_eq_false h, d.embedded?_of_embed_eq_false h]

end Congruence

/-- Without embedding, the script does not depend on any file. With it, the script is told by the files that
embedding may ask for, and it is the one without embedding if none of these can be read. Whether or not files
are embedded, and whatever files there are, each instruction is left out or not, the statements of all
instructions but `COPY` and `ADD` are the same, and so are the number of instructions that are left out and
the working directory, variables and user at the end. -/
theorem compile_embed (o : Options) (input : Text) :
    (o.embed = false → ∀ files files', compile o files' input = compile o files input) ∧
    (∀ files files', (∀ path, MayEmbed o input path → files path = files' path) →
      compile o files' input = compile o files input) ∧
    (∀ files files', (∀ path, MayEmbed o input path → files path = none) →
      compile { o with embed := false } files' input = compile o files input) ∧
    ∀ (b : Bool) (files files' : FileView),
      let steps := trace o files input
      let steps' := trace { o with embed := b } files' input
      let last := stateAfter (.initial (escapeOf input)) steps
      let last' := stateAfter (.initial (escapeOf input)) steps'
      List.Forall₂ Step.Alike steps steps' ∧
      (compile { o with embed := b } files' input).skipped = (compile o files input).skipped ∧
      last'.workdir = last.workdir ∧ last'.env = last.env ∧ last'.user = last.user := by
  refine ⟨fun ho _ _ => compile_eq_of_embed_eq_false ho, fun _ _ => compile_eq_of_agree,
    fun _ _ => compile_eq_of_unreadable, ?_⟩
  intro b files files' steps steps' last last'
  have hsteps : List.Forall₂ Step.Alike steps steps' := forall₂_traceFrom (.refl _) _
  obtain ⟨uses, hlast⟩ : last.Alike last' := alike_stateAfter (.refl _) hsteps
  refine ⟨hsteps, length_skipped_eq hsteps, ?_⟩
  rw [hlast]
  exact ⟨rfl, rfl, rfl⟩

end BuildScript
