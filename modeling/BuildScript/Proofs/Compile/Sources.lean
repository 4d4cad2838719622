import BuildScript.Proofs.Compile.Arguments
import BuildScript.Proofs.Compile.Places

/-!
# What becomes of sources

`COPY` and `ADD` use each of their sources in one way (`Use`): it is an operand of the one command that copies, a
command of its own fetches or unpacks it, or its file is written into the script. The lines of a delivery are
laid out from its sources by their uses (`Delivery.Layout`), so none of them is lost and none is used twice
(`exists_layout`).
-/

namespace BuildScript

open Posix (Statement)
open Posix.Command (makeDirectory copies fetch unpack change)

/-- The ways to use a source. -/
inductive Use where
  | copied
  | fetched
  | unpacked
  /-- The file of the source is written into the script. -/
  | embedded
  deriving DecidableEq, Repr

/-- The name of a command, as it is written. -/
def Posix.Command.name? (c : Posix.Command) : Option Text := c.head?.map Posix.Operand.text

namespace Delivery

/-- How a delivery uses a source. What would be copied is embedded if it can be. -/
def useOf (d : Delivery) (o : Options) (files : FileView) (i : Instruction) (source : Word) : Use :=
  match i.sourceOf source with
  | .fetched _ => .fetched
  | .unpacked _ => .unpacked
  | .copied w => if (d.embedded? o files w).isSome then .embedded else .copied

/-- The sources that are used in one way, in the order of the instruction. -/
def usedAs (d : Delivery) (o : Options) (files : FileView) (i : Instruction) (use : Use) : List Word :=
  d.sources.filter fun source => d.useOf o files i source = use

/-- Whether a command fetches a source to where a file of its name belongs. -/
def FetchedBy (d : Delivery) (i : Instruction) (source : Word) (c : Posix.Command) : Prop :=
  ∃ url, i.sourceOf source = .fetched url ∧ c = fetch (d.target url.fileName) url.render

/-- Whether lines write the file of a source to where a file of its name belongs. -/
def EmbeddedBy (d : Delivery) (o : Options) (files : FileView) (source : Word) (lines : List Text) : Prop :=
  ∃ path name bytes, embedPath? o source = some path ∧ Path.fileName? path = some name ∧
    files path = some bytes ∧ lines = embedLines o.pack (d.target name).toShell bytes

/-- The commands and files of a delivery, one for each source that is fetched or embedded. -/
structure Layout (d : Delivery) (o : Options) (files : FileView) (i : Instruction) where
  fetches : Statement
  /-- The lines of each file that is embedded. -/
  written : List (List Text)
  fetches_spec : List.Forall₂ (d.FetchedBy i) (d.usedAs o files i .fetched) fetches
  written_spec : List.Forall₂ (d.EmbeddedBy o files) (d.usedAs o files i .embedded) written

namespace Layout

variable {d : Delivery} {o : Options} {files : FileView} {i : Instruction}

/-- What brings the sources that are not embedded to their destination: the directory is made, one command
copies, and each of the others has a command of its own. -/
def work (l : d.Layout o files i) : Statement :=
  makeDirectory (d.directoryOperand !(d.usedAs o files i .unpacked).isEmpty) ::
    copies ((d.usedAs o files i .copied).map o.locate) d.dest ++ l.fetches ++
      (d.usedAs o files i .unpacked).map fun source => unpack (o.locate source) d.dest

/-- The lines of a delivery. What sets owner and mode stands at the end of the chain, or on a line behind the
files if there are any. -/
def lines (l : d.Layout o files i) : List Text :=
  if l.written = [] then [(l.work ++ d.changes).text]
  else l.work.text :: l.written.flatten ++ (if d.changes = [] then [] else [d.changes.text])

end Layout

/-! ## Sources by their uses -/

variable {d : Delivery} {o : Options} {files : FileView} {i : Instruction} {source : Word}

theorem mem_usedAs_iff {use : Use} :
    source ∈ d.usedAs o files i use ↔ source ∈ d.sources ∧ d.useOf o files i source = use := by
  rw [usedAs, List.mem_filter, decide_eq_true_eq]

theorem useOf_eq_fetched_iff :
    d.useOf o files i source = .fetched ↔ ∃ url, i.sourceOf source = .fetched url := by
  rcases i.sourceOf_cases source with h | h | ⟨url, h⟩
  · simp only [useOf, h]
    split <;> simp
  · simp [useOf, h]
  · simp [useOf, h]

theorem useOf_eq_unpacked_iff :
    d.useOf o files i source = .unpacked ↔ i.sourceOf source = .unpacked source := by
  rcases i.sourceOf_cases source with h | h | ⟨url, h⟩
  · simp only [useOf, h]
    split <;> simp
  · simp [useOf, h]
  · simp [useOf, h]

theorem useOf_eq_copied_iff :
    d.useOf o files i source = .copied ↔
      i.sourceOf source = .copied source ∧ d.embedded? o files source = none := by
  rcases i.sourceOf_cases source with h | h | ⟨url, h⟩
  · cases hembedded : d.embedded? o files source <;> simp [useOf, h, hembedded]
  · simp [useOf, h]
  · simp [useOf, h]

theorem useOf_eq_embedded_iff :
    d.useOf o files i source = .embedded ↔
      i.sourceOf source = .copied source ∧ ∃ lines, d.embedded? o files source = some lines := by
  rcases i.sourceOf_cases source with h | h | ⟨url, h⟩
  · cases hembedded : d.embedded? o files source <;> simp [useOf, h, hembedded]
  · simp [useOf, h]
  · simp [useOf, h]

/-- Each source is used once. -/
theorem perm_usedAs (d : Delivery) (o : Options) (files : FileView) (i : Instruction) :
    (d.usedAs o files i .copied ++ d.usedAs o files i .fetched ++ d.usedAs o files i .unpacked ++
      d.usedAs o files i .embedded).Perm d.sources := by
  rw [List.perm_iff_count]
  intro source
  have hcount : ∀ use, (d.usedAs o files i use).count source =
      if d.useOf o files i source = use then d.sources.count source else 0 := by
    intro use
    split
    · next huse => exact List.count_filter (by simpa using huse)
    · next huse => exact List.count_eq_zero_of_not_mem fun hmem => huse (mem_usedAs_iff.1 hmem).2
  simp only [List.count_append, hcount]
  cases d.useOf o files i source <;> simp

theorem ne_nil_of_forall₂ {α β : Type} {R : α → β → Prop} {xs : List α} {ys : List β} {y : β}
    (h : List.Forall₂ R xs ys) (hy : y ∈ ys) : xs ≠ [] := by
  rintro rfl
  cases h
  cases hy

/-- What a list is filtered by and what is made of the elements that are left, side by side. -/
theorem forall₂_filter_filterMap {α β : Type} {p : α → Bool} {f : α → Option β} {R : α → β → Prop}
    (hnone : ∀ a, p a = false → f a = none) (hsome : ∀ a, p a = true → ∃ b, f a = some b ∧ R a b)
    (l : List α) : List.Forall₂ R (l.filter p) (l.filterMap f) := by
  induction l with
  | nil => exact .nil
  | cons a rest ih =>
    cases ha : p a with
    | false =>
      rw [List.filter_cons_of_neg (by simp [ha]), List.filterMap_cons_none (hnone a ha)]
      exact ih
    | true =>
      obtain ⟨b, hb, hR⟩ := hsome a ha
      rw [List.filter_cons_of_pos ha, List.filterMap_cons_some hb]
      exact .cons hR ih

/-- The sources that a use picks are told by it, one by one. -/
theorem filterMap_sourceOf_eq {pick : Source → Option Word}
    (hpick : ∀ w v, pick (i.sourceOf w) = some v → v = w) :
    (d.sources.map i.sourceOf).filterMap pick =
      d.sources.filter fun source => (pick (i.sourceOf source)).isSome := by
  rw [List.filterMap_map, ← List.filterMap_eq_filter]
  apply List.filterMap_congr
  intro source _
  cases hsome : pick (i.sourceOf source) with
  | none => simp [Option.guard, hsome]
  | some v => simp [Option.guard, hsome, hpick source v hsome]

theorem filterMap_archive?_eq (o : Options) (files : FileView) :
    (d.sources.map i.sourceOf).filterMap Source.archive? = d.usedAs o files i .unpacked := by
  rw [filterMap_sourceOf_eq fun _ _ h => (Instruction.archive?_sourceOf.1 h).2]
  apply List.filter_congr
  intro source _
  rw [Bool.eq_iff_iff, decide_eq_true_eq, useOf_eq_unpacked_iff, Option.isSome_iff_exists]
  simp [Instruction.archive?_sourceOf]

theorem ownSources_eq (o : Options) (files : FileView) :
    d.ownSources o files (d.sources.map i.sourceOf) = d.usedAs o files i .copied := by
  rw [ownSources, filterMap_sourceOf_eq fun _ _ h => (Instruction.copied?_sourceOf.1 h).2,
    List.filter_filter]
  apply List.filter_congr
  intro source _
  rw [Bool.eq_iff_iff, decide_eq_true_eq, useOf_eq_copied_iff, Bool.and_eq_true, Option.isNone_iff_eq_none,
    Option.isSome_iff_exists, and_comm]
  simp [Instruction.copied?_sourceOf]

theorem forall₂_fetched (o : Options) (files : FileView) :
    List.Forall₂ (fun source url => i.sourceOf source = .fetched url) (d.usedAs o files i .fetched)
      ((d.sources.map i.sourceOf).filterMap Source.url?) := by
  rw [List.filterMap_map]
  apply forall₂_filter_filterMap
  · intro source huse
    rw [decide_eq_false_iff_not, useOf_eq_fetched_iff] at huse
    rcases i.sourceOf_cases source with h | h | ⟨url, h⟩
    · simp [h, Source.url?]
    · simp [h, Source.url?]
    · exact absurd ⟨url, h⟩ huse
  · intro source huse
    rw [decide_eq_true_eq, useOf_eq_fetched_iff] at huse
    obtain ⟨url, h⟩ := huse
    exact ⟨url, by simp [h, Source.url?], h⟩

theorem embedded?_eq_some_iff {lines : List Text} :
    d.embedded? o files source = some lines ↔ d.EmbeddedBy o files source lines := by
  simp only [embedded?, Option.bind_eq_bind, Option.bind_eq_some_iff, EmbeddedBy, Option.pure_def,
    Option.some.injEq]
  constructor
  · rintro ⟨path, hpath, name, hname, bytes, hbytes, rfl⟩
    exact ⟨path, name, bytes, hpath, hname, hbytes, rfl⟩
  · rintro ⟨path, name, bytes, hpath, hname, hbytes, rfl⟩
    exact ⟨path, hpath, name, hname, bytes, hbytes, rfl⟩

theorem forall₂_embeddedFiles (o : Options) (files : FileView) :
    List.Forall₂ (d.EmbeddedBy o files) (d.usedAs o files i .embedded)
      (d.embeddedFiles o files (d.sources.map i.sourceOf)) := by
  rw [embeddedFiles, List.filterMap_map, List.filterMap_filterMap]
  apply forall₂_filter_filterMap
  · intro source huse
    rw [decide_eq_false_iff_not, useOf_eq_embedded_iff] at huse
    show (i.sourceOf source).copied?.bind (d.embedded? o files) = none
    rw [Option.bind_eq_none_iff]
    intro w hw
    obtain ⟨h, rfl⟩ := Instruction.copied?_sourceOf.1 hw
    exact Option.eq_none_iff_forall_ne_some.2 fun lines hlines => huse ⟨h, lines, hlines⟩
  · intro source huse
    rw [decide_eq_true_eq, useOf_eq_embedded_iff] at huse
    obtain ⟨h, lines, hlines⟩ := huse
    exact ⟨lines, by simp [h, Source.copied?, hlines], embedded?_eq_some_iff.1 hlines⟩

/-! ## Lines -/

/-- If some sources are unpacked and others are not, there are several, so the destination is a directory. -/
theorem intoDirectory_of_uses {use : Use} (huse : use ≠ .unpacked)
    (hunpacked : d.usedAs o files i .unpacked ≠ []) (hother : d.usedAs o files i use ≠ []) : d.intoDirectory = true := by
  have hlength := (d.perm_usedAs o files i).length_eq
  simp only [List.length_append] at hlength
  have hfirst := List.length_pos_of_ne_nil hunpacked
  have hsecond := List.length_pos_of_ne_nil hother
  rw [intoDirectory, Bool.or_eq_true, decide_eq_true_eq]
  right
  cases use with
  | unpacked => exact absurd rfl huse
  | _ => omega

/-- A file that is fetched gets the same path whether or not archives are unpacked beside it. -/
theorem inside_eq_target (h : d.usedAs o files i .unpacked ≠ []) (hfetched : d.usedAs o files i .fetched ≠ [])
    (name : Text) : d.inside name = d.target name := by
  rw [target, if_pos (intoDirectory_of_uses (by decide) h hfetched)]

/-- What a delivery comes to is laid out from its sources. -/
theorem exists_layout_compile (d : Delivery) (o : Options) (files : FileView) (s : State) (i : Instruction) :
    ∃ l : d.Layout o files i, (d.compile o files s (d.sources.map i.sourceOf)).lines = l.lines := by
  have hurls := d.forall₂_fetched (i := i) o files
  have hdirectory : ∀ url ∈ (d.sources.map i.sourceOf).filterMap Source.url?,
      (if !(d.usedAs o files i .unpacked).isEmpty then d.inside url.fileName else d.target url.fileName) =
        d.target url.fileName := by
    intro url hurl
    split
    · next hunpacked =>
      exact inside_eq_target (by simpa using hunpacked) (ne_nil_of_forall₂ hurls hurl) url.fileName
    · rfl
  let l : d.Layout o files i :=
    { fetches := ((d.sources.map i.sourceOf).filterMap Source.url?).map fun url =>
        fetch (d.target url.fileName) url.render
      written := d.embeddedFiles o files (d.sources.map i.sourceOf)
      fetches_spec := List.forall₂_map_right_iff.2 (hurls.imp fun _ url h => ⟨url, h, rfl⟩)
      written_spec := forall₂_embeddedFiles o files }
  have hwork : (d.shapeWith o files (d.sources.map i.sourceOf)).work = l.work := by
    simp only [DeliveryShape.work, shapeWith, shape, filterMap_archive?_eq o files, ownSources_eq,
      List.map_map, Layout.work, l]
    congr 2
    exact List.map_congr_left fun url hurl => by rw [Function.comp_apply, hdirectory url hurl]
  refine ⟨l, ?_⟩
  rw [lines_compile_shapeWith, hwork, assemble, Layout.lines, ← map_text_changes, ← List.map_append]
  simp only [List.map_eq_nil_iff]
  rfl

theorem names_work (l : d.Layout o files i) :
    l.work.map Posix.Command.name? = some "mkdir".toList ::
      (if d.usedAs o files i .copied = [] then [] else [some "cp".toList]) ++
        List.replicate (d.usedAs o files i .fetched).length (some "wget".toList) ++
        List.replicate (d.usedAs o files i .unpacked).length (some "tar".toList) := by
  have hcopies : (copies ((d.usedAs o files i .copied).map o.locate) d.dest).map Posix.Command.name? =
      if d.usedAs o files i .copied = [] then [] else [some "cp".toList] := by
    cases d.usedAs o files i .copied <;> rfl
  have hfetches : l.fetches.map Posix.Command.name? =
      List.replicate (d.usedAs o files i .fetched).length (some "wget".toList) := by
    rw [List.eq_replicate_iff, List.length_map, l.fetches_spec.length_eq]
    refine ⟨rfl, List.forall_mem_map.2 (Posix.forall_mem_of_forall₂ l.fetches_spec ?_)⟩
    rintro source c ⟨url, -, rfl⟩
    rfl
  have hunpacks : ((d.usedAs o files i .unpacked).map fun source => unpack (o.locate source) d.dest).map
      Posix.Command.name? =
        List.replicate (d.usedAs o files i .unpacked).length (some "tar".toList) := by
    rw [List.map_map]
    exact List.map_const' ..
  rw [Layout.work, List.map_append, List.map_append, List.map_cons, hcopies, hfetches, hunpacks]
  rfl

theorem names_changes (d : Delivery) :
    d.changes.map Posix.Command.name? =
      (if d.flags.owner.isSome then [some "chown".toList] else []) ++
        (if d.flags.mode.isSome then [some "chmod".toList] else []) := by
  unfold changes
  cases d.flags.owner <;> cases d.flags.mode <;> rfl

end Delivery

variable {s : State} {o : Options} {files : FileView} {i : Instruction} {lines : List Text}

/-- The lines of a `COPY` or `ADD` are laid out from its delivery. -/
theorem State.exists_delivers_layout (hkeyword : i.keyword ∈ [.copy, .add])
    (hlines : (Step.ofInstruction o files s i).lines = some lines) :
    ∃ d, s.Delivers i d ∧ ∃ l : d.Layout o files i, lines = l.lines := by
  have hne : (Step.ofInstruction o files s i).lines ≠ none := by simp [hlines]
  obtain ⟨d, hd⟩ := State.exists_delivers hkeyword hne
  obtain ⟨l, hl⟩ := d.exists_layout_compile o files s i
  rw [hd.ofInstruction_eq, Option.some_inj, hl] at hlines
  exact ⟨d, hd, l, hlines.symm⟩

/-- The lines of a `COPY` or `ADD` are laid out from the sources of its argument, expanded. Each source is used
once, and those that are used alike keep their order. The directory is made first; there is one command that
copies if and only if there are sources to copy, and one command or file for each of the others. Owner and mode
are each set once, in this order, if a flag asks for it, and only behind all that brings something. -/
theorem exists_layout (hkeyword : i.keyword ∈ [.copy, .add])
    (hlines : (Step.ofInstruction o files s i).lines = some lines) :
    ∃ d, s.Delivers i d ∧ d.sources = (s.pathWords i.arguments).dropLast.map s.expand ∧
      (d.usedAs o files i .copied ++ d.usedAs o files i .fetched ++ d.usedAs o files i .unpacked ++
        d.usedAs o files i .embedded).Perm d.sources ∧
      (∀ use, (d.usedAs o files i use).Sublist d.sources) ∧
      (d.flags.owner.isSome = true ↔
        ∃ flag ∈ writtenFlags (Text.trimStart i.arguments), flagName flag = "chown".toList) ∧
      (d.flags.mode.isSome = true ↔
        ∃ flag ∈ writtenFlags (Text.trimStart i.arguments), flagName flag = "chmod".toList) ∧
      d.changes.map Posix.Command.name? =
        (if d.flags.owner.isSome then [some "chown".toList] else []) ++
          (if d.flags.mode.isSome then [some "chmod".toList] else []) ∧
      ∃ l : d.Layout o files i, lines = l.lines ∧
        l.work.map Posix.Command.name? = some "mkdir".toList ::
          (if d.usedAs o files i .copied = [] then [] else [some "cp".toList]) ++
            List.replicate (d.usedAs o files i .fetched).length (some "wget".toList) ++
            List.replicate (d.usedAs o files i .unpacked).length (some "tar".toList) := by
  obtain ⟨d, hd, l, hl⟩ := State.exists_delivers_layout hkeyword hlines
  obtain ⟨sources, dest, -, hwords, hread⟩ := State.delivery?_eq_some_iff.1 hd.read
  refine ⟨d, hd, ?_, d.perm_usedAs o files i, fun _ => List.filter_sublist, ?_, ?_, d.names_changes, l, hl,
    Delivery.names_work l⟩
  · rw [hwords, List.dropLast_concat, hread]
    rfl
  · rw [hread]
    exact (State.isSome_foldl_setFlag (State.owner_setFlag s) {} _).trans (or_iff_right Bool.false_ne_true)
  · rw [hread]
    exact (State.isSome_foldl_setFlag (State.mode_setFlag s) {} _).trans (or_iff_right Bool.false_ne_true)

/-- A URL, an archive, a pattern and a file that is named twice, with flags of which one does not count. -/
theorem exists_layout_mixed :
    let i : Instruction :=
      ⟨.add, [], "--chmod=600 --chown=a --chown=b https://b.org/c f x.tgz *.y f /d".toList, 1, []⟩
    let o : Options := { embed := true }
    let files : FileView := fun path => if path = "./f".toList then some [104, 105] else none
    let d : Delivery :=
      { flags := { owner := some (.literal "b".toList), mode := some (.literal "600".toList) }
        sources := ["https://b.org/c", "f", "x.tgz", "*.y", "f"].map fun t => .literal t.toList
        dest := .literal "/d".toList }
    (State.initial '\\').Delivers i d ∧
      d.usedAs o files i .copied = [.literal "*.y".toList] ∧
      d.usedAs o files i .fetched = [.literal "https://b.org/c".toList] ∧
      d.usedAs o files i .unpacked = [.literal "x.tgz".toList] ∧
      d.usedAs o files i .embedded = [.literal "f".toList, .literal "f".toList] ∧
      d.changes.map Posix.Command.name? = [some "chown".toList, some "chmod".toList] ∧
      ∃ l : d.Layout o files i,
        (Step.ofInstruction o files (.initial '\\') i).lines = some l.lines ∧
        l.work.map Posix.Command.name? = ["mkdir", "cp", "wget", "tar"].map fun name => some name.toList := by
  intro i o files d
  have hsome : (Step.ofInstruction o files (.initial '\\') i).lines.isSome = true := by decide +kernel
  obtain ⟨lines, hlines⟩ := Option.isSome_iff_exists.1 hsome
  obtain ⟨e, he, -, -, -, -, -, hchanges, l, rfl, hwork⟩ := exists_layout (by decide) hlines
  have hread : (State.initial '\\').delivery? i.arguments = some d := by decide +kernel
  obtain rfl : d = e := Option.some.inj (hread.symm.trans he.read)
  have hcopied : d.usedAs o files i .copied = [.literal "*.y".toList] := by decide +kernel
  have hfetched : d.usedAs o files i .fetched = [.literal "https://b.org/c".toList] := by decide +kernel
  have hunpacked : d.usedAs o files i .unpacked = [.literal "x.tgz".toList] := by decide +kernel
  refine ⟨he, hcopied, hfetched, hunpacked, by decide +kernel, hchanges, l, hlines, ?_⟩
  rw [hwork, hcopied, hfetched, hunpacked]
  rfl

end BuildScript
