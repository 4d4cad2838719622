import BuildScript.Proofs.Compile.Append
import BuildScript.Proofs.Compile.Deliveries
import BuildScript.Proofs.Compile.Frame
import BuildScript.Proofs.Compile.Places

/-!
# The line of the build context

The prologue gives the variable of the build context a value if and only if a line refers to it
(`contextLine_mem_prologue_iff`). Both are told by the sources of `COPY` and `ADD`: one of them has to be
looked for in the build context when the script runs (`Delivery.LooksFor`), and no directory was chosen for
that.
-/

namespace BuildScript

open Posix (Operand Statement)
open Posix.Command (fixed makeDirectory copy copies fetch unpack)

/-- The lines of a prologue that does not name the build context. -/
def Options.header (o : Options) : List Text :=
  ['#' :: '!' :: o.shell, "set -e".toList] ++
    (o.sourceName.map fun name => "# translated from ".toList ++ name).toList

/-- The variable of the build context as it stands in a line. -/
def contextReference : Text := "\"$\x7bDOCKER2SH_CONTEXT\x7d\"".toList

namespace Delivery

/-- Whether a source of an instruction is looked for in the build context when the script runs: it does not
begin with a slash, `ADD` does not fetch it, and it is not embedded. -/
structure LooksFor (d : Delivery) (o : Options) (files : FileView) (i : Instruction) (source : Word) :
    Prop where
  mem : source ∈ d.sources
  relative : source.startsWith ['/'] = false
  not_url : i.keyword = .add → ∀ text ∈ source.text?, Url.ofText? text = none
  not_embedded : i.sourceOf source = .copied source → d.embedded? o files source = none

/-- Whether a line refers to the build context for a source, whose place is an operand of a command there. -/
structure RefersTo (d : Delivery) (o : Options) (files : FileView) (i : Instruction) (line : Text)
    (source : Word) : Prop where
  mem : source ∈ d.sources
  place : o.locate source = .var contextVariable (.char '/' source)
  operand : ∃ c ∈ (d.shapeWith o files (d.sources.map i.sourceOf)).work,
    Operand.pattern (o.locate source) ∈ c ∧ c.text <:+: line
  text : ∃ path, (o.locate source).toShellGlob = contextReference ++ path ∧ Shell.IsRooted path ∧
    contextReference ++ path <:+: line

end Delivery

/-! ## Texts in a row -/

theorem Text.infix_join {sep t : Text} {ts : List Text} (h : t ∈ ts) : t <:+: join sep ts := by
  induction ts with
  | nil => cases h
  | cons u rest ih =>
    by_cases hrest : rest = []
    · rw [hrest] at h ⊢
      rw [List.mem_singleton.1 h]
      exact List.infix_rfl
    · rw [join_cons hrest, List.append_assoc]
      rcases List.mem_cons.1 h with rfl | h
      · exact (List.prefix_append _ _).isInfix
      · have hsuffix : join sep rest <:+ u ++ (sep ++ join sep rest) :=
          (List.suffix_append sep _).trans (List.suffix_append u _)
        exact (ih h).trans hsuffix.isInfix

theorem Posix.Command.infix_text {c : Posix.Command} {operand : Operand} (h : operand ∈ c) :
    operand.text <:+: c.text :=
  Text.infix_join (List.mem_map_of_mem h)

/-- The commands of a delivery are joined in one of its lines, with more behind them. -/
theorem Delivery.exists_chain_mem_assemble (d : Delivery) (commands : List Text)
    (embedded : List (List Text)) : ∃ more, chain (commands ++ more) ∈ d.assemble commands embedded := by
  unfold assemble
  split
  · exact ⟨d.ownership, List.mem_singleton_self _⟩
  · refine ⟨[], ?_⟩
    rw [List.append_nil, List.cons_append]
    exact List.mem_cons_self

/-! ## Places of sources -/

theorem Shell.isRooted_quoteGlob (t : Text) : IsRooted (quoteGlob ('/' :: t)) := by
  unfold quoteGlob
  split
  · have hslash : ¬isGlob '/' = true := by decide
    rw [globParts, if_neg hslash]
    split
    · exact (isRooted_quote _).append _
    · exact (isRooted_quote _).append _
  · exact isRooted_quote t

theorem Word.exists_toShellGlob_context (rest : Word) :
    ∃ path, (Word.var contextVariable (.char '/' rest)).toShellGlob = contextReference ++ path ∧
      Shell.IsRooted path := by
  obtain ⟨t, others, hsegments⟩ := exists_segments_char '/' rest
  refine ⟨Shell.quoteGlob ('/' :: t) ++ others.flatMap (Segment.render Shell.quoteGlob), ?_,
    (Shell.isRooted_quoteGlob t).append _⟩
  rw [toShellGlob, render, segments, hsegments]
  rfl

namespace Options

variable {o : Options} {source : Word}

theorem locate_of_none (h : o.contextDir = none) (hstarts : source.startsWith ['/'] = false) :
    o.locate source = .var contextVariable (.char '/' source) := by
  rw [locate, hstarts, h, if_neg Bool.false_ne_true]
  rfl

theorem usesContext_iff :
    o.usesContext source = true ↔ o.contextDir = none ∧ source.startsWith ['/'] = false := by
  simp [usesContext]

/-- A place that is told by the variable is that of a source below the build context. -/
theorem usesContext_of_locate {rest : Word} (h : o.locate source = .var contextVariable rest) :
    o.usesContext source = true := by
  rcases o.locate_cases source with ⟨_, hlocate, -⟩ | ⟨-, huses, -⟩ | ⟨c, _, hlocate, -⟩
  · rw [hlocate] at h
    cases h
  · exact huses
  · rw [hlocate] at h
    cases h

end Options

/-! ## Sources of a delivery -/

namespace Delivery

variable {d : Delivery} {o : Options} {files : FileView} {i : Instruction} {source : Word}

theorem mem_filterMap_sourceOf {pick : Source → Option Word}
    (hpick : ∀ w v, pick (i.sourceOf w) = some v → v = w) :
    source ∈ (d.sources.map i.sourceOf).filterMap pick ↔
      source ∈ d.sources ∧ pick (i.sourceOf source) = some source := by
  rw [List.filterMap_map, List.mem_filterMap]
  constructor
  · rintro ⟨w, hw, hsource⟩
    obtain rfl := hpick w source hsource
    exact ⟨hw, hsource⟩
  · rintro ⟨hmem, hsource⟩
    exact ⟨source, hmem, hsource⟩

theorem mem_ownSources_iff :
    source ∈ d.ownSources o files (d.sources.map i.sourceOf) ↔
      source ∈ d.sources ∧ i.sourceOf source = .copied source ∧ d.embedded? o files source = none := by
  rw [ownSources, List.mem_filter,
    mem_filterMap_sourceOf fun _ _ h => (Instruction.copied?_sourceOf.1 h).2,
    Instruction.copied?_sourceOf, Option.isNone_iff_eq_none]
  simp [and_assoc]

theorem mem_archives_iff :
    source ∈ (d.sources.map i.sourceOf).filterMap Source.archive? ↔
      source ∈ d.sources ∧ i.sourceOf source = .unpacked source := by
  rw [mem_filterMap_sourceOf fun _ _ h => (Instruction.archive?_sourceOf.1 h).2,
    Instruction.archive?_sourceOf]
  simp

/-- The sources that are looked for are those that commands copy or unpack and that do not begin with a
slash. -/
theorem looksFor_iff :
    d.LooksFor o files i source ↔ source.startsWith ['/'] = false ∧
      source ∈ d.ownSources o files (d.sources.map i.sourceOf) ++
        (d.sources.map i.sourceOf).filterMap Source.archive? := by
  rw [List.mem_append, mem_ownSources_iff, mem_archives_iff]
  constructor
  · rintro ⟨hmem, hrelative, hurl, hembedded⟩
    refine ⟨hrelative, ?_⟩
    rcases i.sourceOf_cases source with hcopied | hunpacked | ⟨url, hfetched⟩
    · exact .inl ⟨hmem, hcopied, hembedded hcopied⟩
    · exact .inr ⟨hmem, hunpacked⟩
    · exact absurd hfetched (Instruction.sourceOf_ne_fetched_iff.2 hurl url)
  · rintro ⟨hrelative, ⟨hmem, hcopied, hembedded⟩ | ⟨hmem, hunpacked⟩⟩
    · refine ⟨hmem, hrelative, Instruction.sourceOf_ne_fetched_iff.1 fun url => ?_, fun _ => hembedded⟩
      simp [hcopied]
    · refine ⟨hmem, hrelative, Instruction.sourceOf_ne_fetched_iff.1 fun url => ?_, ?_⟩
      · simp [hunpacked]
      · simp [hunpacked]

end Delivery

/-- The patterns among the operands of what a delivery does are what is copied and what is unpacked. -/
theorem DeliveryShape.exists_pattern_mem_work_iff {d : DeliveryShape} {w : Word}
    (hdirectory : ∀ v, d.directory ≠ .pattern v) :
    (∃ c ∈ d.work, Operand.pattern w ∈ c) ↔ w ∈ d.copied ++ d.unpacked := by
  have hcopies : (∃ c ∈ copies d.copied d.dest, Operand.pattern w ∈ c) ↔ w ∈ d.copied := by
    cases d.copied with
    | nil => simp [copies]
    | cons v vs => simp [copies, copy, fixed]
  rw [List.mem_append, ← hcopies]
  constructor
  · rintro ⟨c, hc, hw⟩
    simp only [work, List.mem_append, List.mem_cons, List.mem_map] at hc
    rcases hc with ((rfl | hc) | ⟨f, -, rfl⟩) | ⟨archive, harchive, rfl⟩
    · have hne := hdirectory w
      simp [makeDirectory, fixed, hne.symm] at hw
    · exact .inl ⟨c, hc, hw⟩
    · simp [fetch, fixed] at hw
    · have heq : w = archive := by simpa [unpack, fixed] using hw
      exact .inr (heq ▸ harchive)
  · rintro (⟨c, hc, hw⟩ | hw)
    · exact ⟨c, by simp [work, hc], hw⟩
    · refine ⟨unpack w d.dest, ?_, by simp [unpack, fixed]⟩
      simp only [work, List.mem_append]
      exact .inr (List.mem_map_of_mem hw)

namespace Delivery

variable {d : Delivery} {o : Options} {files : FileView} {i : Instruction} {line : Text} {source : Word}

/-- The places that commands of a delivery copy from are those of the sources that are copied or unpacked. -/
theorem exists_pattern_mem_work_iff {w : Word} :
    (∃ c ∈ (d.shapeWith o files (d.sources.map i.sourceOf)).work, Operand.pattern w ∈ c) ↔
      ∃ source ∈ d.ownSources o files (d.sources.map i.sourceOf) ++
        (d.sources.map i.sourceOf).filterMap Source.archive?, o.locate source = w := by
  rw [DeliveryShape.exists_pattern_mem_work_iff, ← List.mem_map, List.map_append]
  · rfl
  · intro v
    show d.directoryOperand _ ≠ _
    rcases d.directoryOperand_cases (!((d.sources.map i.sourceOf).filterMap Source.archive?).isEmpty)
        with ⟨dir, h⟩ | ⟨h, -⟩
    · rw [h]
      exact Operand.noConfusion
    · rw [h]
      exact Operand.noConfusion

/-- If a source is looked for, a line of the delivery refers to the build context for it. -/
theorem LooksFor.exists_line (h : d.LooksFor o files i source) (ho : o.contextDir = none) (s : State) :
    ∃ line ∈ (d.compile o files s (d.sources.map i.sourceOf)).lines, d.RefersTo o files i line source := by
  have hplace := Options.locate_of_none ho h.relative
  obtain ⟨path, hpath, hrooted⟩ := Word.exists_toShellGlob_context source
  obtain ⟨c, hc, hoperand⟩ := exists_pattern_mem_work_iff.2 ⟨source, (looksFor_iff.1 h).2, rfl⟩
  obtain ⟨more, hline⟩ := d.exists_chain_mem_assemble
    ((d.shapeWith o files (d.sources.map i.sourceOf)).work.map Posix.Command.text)
    (d.embeddedFiles o files (d.sources.map i.sourceOf))
  have hcommand : c.text <:+: chain ((d.shapeWith o files (d.sources.map i.sourceOf)).work.map
      Posix.Command.text ++ more) :=
    Text.infix_join (List.mem_append_left _ (List.mem_map_of_mem hc))
  refine ⟨_, ?_, h.mem, hplace, ⟨c, hc, hoperand, hcommand⟩, path, ?_, hrooted, ?_⟩
  · rw [lines_compile_shapeWith]
    exact hline
  · rw [hplace, hpath]
  · rw [← hpath, ← hplace]
    exact (Posix.Command.infix_text hoperand).trans hcommand

/-- What a line refers to the build context for is looked for there. -/
theorem RefersTo.exists_looksFor (h : d.RefersTo o files i line source) :
    o.contextDir = none ∧ ∃ v, d.LooksFor o files i v := by
  obtain ⟨c, hc, hoperand, -⟩ := h.operand
  obtain ⟨v, hv, hlocate⟩ := exists_pattern_mem_work_iff.1 ⟨c, hc, hoperand⟩
  obtain ⟨ho, hrelative⟩ := Options.usesContext_iff.1 (Options.usesContext_of_locate (hlocate.trans h.place))
  exact ⟨ho, v, looksFor_iff.2 ⟨hrelative, hv⟩⟩

/-- Whether a line refers to the build context is noted if a source is looked for. -/
theorem usesContext_compile_iff {s : State} :
    (d.compile o files s (d.sources.map i.sourceOf)).state.usesContext = true ↔
      s.usesContext = true ∨ o.contextDir = none ∧ ∃ source, d.LooksFor o files i source := by
  simp only [Delivery.compile, map_filter_ownFiles, Bool.or_eq_true, List.any_eq_true,
    Options.usesContext_iff, looksFor_iff]
  constructor
  · rintro (h | ⟨v, hv, ho, hrelative⟩)
    · exact .inl h
    · exact .inr ⟨ho, v, hrelative, hv⟩
  · rintro (h | ⟨ho, v, hrelative, hv⟩)
    · exact .inl h
    · exact .inr ⟨v, hv, ho, hrelative⟩

end Delivery

/-! ## Runs -/

section Runs

variable {o : Options} {files : FileView} {s : State}

/-- What one instruction notes about the build context. -/
theorem usesContext_ofInstruction_iff {i : Instruction} :
    (Step.ofInstruction o files s i).state.usesContext = true ↔
      s.usesContext = true ∨
        o.contextDir = none ∧ ∃ d, s.Delivers i d ∧ ∃ source, d.LooksFor o files i source := by
  by_cases h : ∃ d, s.Delivers i d
  · obtain ⟨d, hd⟩ := h
    rw [hd.ofInstruction_eq, Delivery.usesContext_compile_iff]
    have hunique : (∃ e, s.Delivers i e ∧ ∃ source, e.LooksFor o files i source) ↔
        ∃ source, d.LooksFor o files i source := by
      constructor
      · rintro ⟨e, he, hsource⟩
        rwa [Option.some.inj (hd.read.symm.trans he.read)]
      · exact fun hsource => ⟨d, hd, hsource⟩
    rw [hunique]
  · -- All other instructions, and deliveries that are left out, keep that part of the state.
    have hsame : State.Part.usesContext.Same s (Step.ofInstruction o files s i).state :=
      State.same_ofInstruction fun hlines hkeyword => h (State.exists_delivers hkeyword hlines)
    change (Step.ofInstruction o files s i).state.usesContext = s.usesContext at hsame
    rw [hsame]
    constructor
    · exact .inl
    · rintro (huses | ⟨-, d, hd, -⟩)
      · exact huses
      · exact absurd ⟨d, hd⟩ h

/-- The build context is referred to after some instructions if it was before, or if a source of one of them
is looked for there. -/
theorem usesContext_stateAfter_iff {is : List Instruction} :
    (stateAfter s (traceFrom o files s is)).usesContext = true ↔
      s.usesContext = true ∨ o.contextDir = none ∧
        ∃ t i d, ComesTo o files s is t i ∧ t.Delivers i d ∧ ∃ source, d.LooksFor o files i source := by
  induction is generalizing s with
  | nil =>
    simp only [not_comesTo_nil, false_and, exists_false, and_false, or_false]
    rfl
  | cons j is ih =>
    rw [traceFrom, stateAfter_cons, ih, usesContext_ofInstruction_iff, or_assoc, ← and_or_left]
    have hfirst : (∃ t i d, ComesTo o files s (j :: is) t i ∧ t.Delivers i d ∧
          ∃ source, d.LooksFor o files i source) ↔
        (∃ d, s.Delivers j d ∧ ∃ source, d.LooksFor o files j source) ∨
          ∃ t i d, ComesTo o files (Step.ofInstruction o files s j).state is t i ∧ t.Delivers i d ∧
            ∃ source, d.LooksFor o files i source := by
      simp only [comesTo_cons_iff]
      constructor
      · rintro ⟨t, i, d, ⟨rfl, rfl⟩ | hcomes, hd, hsource⟩
        · exact .inl ⟨d, hd, hsource⟩
        · exact .inr ⟨t, i, d, hcomes, hd, hsource⟩
      · rintro (⟨d, hd, hsource⟩ | ⟨t, i, d, hcomes, hd, hsource⟩)
        · exact ⟨s, j, d, .inl ⟨rfl, rfl⟩, hd, hsource⟩
        · exact ⟨t, i, d, .inr hcomes, hd, hsource⟩
    rw [hfirst]

end Runs

/-! ## The prologue -/

theorem prologue_eq_header (o : Options) : (prologue o false).prologue = o.header := by
  unfold prologue Options.header
  cases o.sourceName with
  | none => rfl
  | some name => rfl

theorem contextLine_notMem_header (o : Options) : contextLine ∉ o.header := by
  have hcontext : contextLine.head? = some 'D' := rfl
  have hheader : ∀ line ∈ o.header, line.head? ≠ some 'D' := by
    intro line hline
    simp only [Options.header, List.cons_append, List.nil_append, List.mem_cons, Option.mem_toList,
      Option.map_eq_some_iff] at hline
    rcases hline with rfl | rfl | ⟨name, -, rfl⟩ <;> simp
  exact fun h => hheader _ h hcontext

/-- The prologue is the interpreter, the line that stops the script at a failure, the comment that names the
build file, and the line of the build context if it is referred to. -/
theorem prologue_compile (o : Options) (files : FileView) (input : Text) :
    (compile o files input).prologue = o.header ++
      if (stateAfter (.initial (escapeOf input)) (trace o files input)).usesContext
        then [contextLine] else [] := by
  rw [compile_eq_scriptOf, prologue_scriptOf_eq o _ (escapeOf input), prologue_eq_append,
    prologue_eq_header]

theorem contextLine_mem_prologue_iff_usesContext {o : Options} {files : FileView} {input : Text} :
    contextLine ∈ (compile o files input).prologue ↔
      (stateAfter (.initial (escapeOf input)) (trace o files input)).usesContext = true := by
  rw [prologue_compile, List.mem_append, or_iff_right (contextLine_notMem_header o)]
  split <;> simp [*]

/-- The line that gives the variable of the build context its value is in the prologue if and only if no
directory was chosen for the build context and a source of some `COPY` or `ADD` is looked for in it, and this
is the case if and only if a line of some `COPY` or `ADD` refers to it. There the line is the last one of the
prologue, and is nowhere else in it; without it the prologue is the same but for that line. -/
theorem contextLine_mem_prologue_iff (o : Options) (files : FileView) (input : Text) :
    contextLine = "DOCKER2SH_CONTEXT=\"$\x7bDOCKER2SH_CONTEXT:-$PWD\x7d\"".toList ∧
    (contextLine ∈ (compile o files input).prologue ↔ o.contextDir = none ∧
      ∃ s i d, ComesTo o files (.initial (escapeOf input)) (instructions input) s i ∧ s.Delivers i d ∧
        ∃ source, d.LooksFor o files i source) ∧
    (contextLine ∈ (compile o files input).prologue ↔
      ∃ s i d, ComesTo o files (.initial (escapeOf input)) (instructions input) s i ∧ s.Delivers i d ∧
        ∃ line ∈ (Step.ofInstruction o files s i).statements, ∃ source, d.RefersTo o files i line source) ∧
    (compile o files input).prologue =
      o.header ++ (if contextLine ∈ (compile o files input).prologue then [contextLine] else []) ∧
    contextLine ∉ o.header := by
  have hiff : contextLine ∈ (compile o files input).prologue ↔ o.contextDir = none ∧
      ∃ s i d, ComesTo o files (.initial (escapeOf input)) (instructions input) s i ∧ s.Delivers i d ∧
        ∃ source, d.LooksFor o files i source := by
    rw [contextLine_mem_prologue_iff_usesContext, trace, usesContext_stateAfter_iff]
    exact or_iff_right Bool.false_ne_true
  refine ⟨rfl, hiff, hiff.trans ?_, ?_, contextLine_notMem_header o⟩
  · constructor
    · rintro ⟨ho, s, i, d, hcomes, hd, source, hsource⟩
      obtain ⟨line, hline, hrefers⟩ := hsource.exists_line ho s
      refine ⟨s, i, d, hcomes, hd, line, ?_, source, hrefers⟩
      rw [hd.ofInstruction_eq]
      exact hline
    · rintro ⟨s, i, d, hcomes, hd, line, -, source, hrefers⟩
      obtain ⟨ho, hsource⟩ := hrefers.exists_looksFor
      exact ⟨ho, s, i, d, hcomes, hd, hsource⟩
  · conv_lhs => rw [prologue_compile]
    simp only [contextLine_mem_prologue_iff_usesContext]

/-- A URL and a path from the root: neither is looked for in the build context. -/
example : (compile {} (fun _ => none) "FROM a\nADD https://b.org/c /d /e/".toList).prologue =
    ["#!/bin/sh".toList, "set -e".toList] := by
  decide +kernel

end BuildScript
