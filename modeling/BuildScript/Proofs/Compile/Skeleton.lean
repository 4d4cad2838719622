import BuildScript.Proofs.Compile.Invariant
import BuildScript.Proofs.Posix.Command

/-!
# What the lines of instructions look like

Each instruction other than `RUN` that does something in the script has lines of one shape (`Skeleton`):
the commands are fixed, and what comes from the build file, from recorded variables or from the options
stands in their operands. A shell reads a line as that shape and finds nothing in an operand that was not
to be there (`read_line_of_mem_trace`), so no build file can put a command of its own into such a line.
-/

namespace BuildScript

open Posix

namespace Posix.Command

/-- Fixed words of a command. -/
def fixed (words : List String) : List Operand := words.map fun t => .plain t.toList

def makeDirectory (dir : Operand) : List Operand := fixed ["mkdir", "-p"] ++ [dir]

def copy (sources : List Word) (dest : Word) : List Operand :=
  fixed ["cp", "-R"] ++ sources.map .pattern ++ [.word dest]

/-- Sources are copied by one command, if there are any. -/
def copies : List Word → Word → List (List Operand)
  | [], _ => []
  | source :: others, dest => [copy (source :: others) dest]

def fetch (target : Word) (url : Text) : List Operand :=
  fixed ["wget", "-O"] ++ [.word target, .word (.literal url)]

def unpack (archive dest : Word) : List Operand :=
  fixed ["tar", "-xf"] ++ [.pattern archive] ++ fixed ["-C"] ++ [.word dest]

def change (name : String) (arg dest : Word) : List Operand :=
  fixed [name, "-R"] ++ [.word arg, .word dest]

end Posix.Command

open Posix.Command (fixed makeDirectory copy copies fetch unpack change)

/-- What `COPY` and `ADD` do: the directory that they make, and sources, owner and mode. -/
structure DeliveryShape where
  directory : Operand
  copied : List Word
  fetched : List (Word × Text)
  unpacked : List Word
  owner : Option Word
  mode : Option Word
  dest : Word

/-- The commands of `COPY` and `ADD` before owner and mode are set. -/
def DeliveryShape.work (d : DeliveryShape) : Statement :=
  makeDirectory d.directory :: copies d.copied d.dest ++
    d.fetched.map (fun f => fetch f.1 f.2) ++ d.unpacked.map (unpack · d.dest)

/-- The commands of `COPY` and `ADD`. -/
def DeliveryShape.statement (d : DeliveryShape) : Statement :=
  makeDirectory d.directory :: copies d.copied d.dest ++
    d.fetched.map (fun f => fetch f.1 f.2) ++ d.unpacked.map (unpack · d.dest) ++
    ((d.owner.map (change "chown" · d.dest)).toList ++
      (d.mode.map (change "chmod" · d.dest)).toList)

/-- The statements that the lines of an instruction may be. A directory is told by a command only if the
destination has references. -/
inductive Skeleton : Keyword → Statement → Prop
  | env (name : Text) (value : Word) : Skeleton .env [fixed ["export"] ++ [.binding name value]]
  | arg (name : Text) (fallback : Word) :
    Skeleton .arg [fixed ["export"] ++ [.binding name (.cond name .default fallback .nil)]]
  | argName (name : Text) : Skeleton .arg [fixed ["export"] ++ [.plain name]]
  | workdir (dir : Word) :
    Skeleton .workdir [makeDirectory (.word dir), fixed ["cd"] ++ [.word dir]]
  | volume (dirs : List Word) (h : dirs ≠ []) :
    Skeleton .volume [fixed ["mkdir", "-p"] ++ dirs.map .word]
  | copy (d : DeliveryShape) (hfetched : d.fetched = []) (hunpacked : d.unpacked = [])
    (hdirectory : (∃ dir, d.directory = .word dir) ∨
      d.directory = .parent d.dest ∧ d.dest.text? = none) : Skeleton .copy d.statement
  | add (d : DeliveryShape)
    (hdirectory : (∃ dir, d.directory = .word dir) ∨
      d.directory = .parent d.dest ∧ d.dest.text? = none) : Skeleton .add d.statement

/-! ## Texts of commands -/

theorem segments_literal {t : Text} (h : t ≠ []) : (Word.literal t).segments = [.literal t] := by
  induction t with
  | nil => exact absurd rfl h
  | cons c rest ih =>
    by_cases hrest : rest = []
    · rw [hrest]
      rfl
    · rw [Word.literal, Word.segments, ih hrest]

theorem render_literal {quote : Text → Text} (hnil : quote [] = ['\'', '\'']) (t : Text) :
    (Word.literal t).render quote = quote t := by
  by_cases h : t = []
  · rw [h, hnil]
    rfl
  · have hempty : (Word.literal t).isEmpty = false := by
      cases t with
      | nil => exact absurd rfl h
      | cons c rest => rfl
    simp [Word.render, hempty, segments_literal h, Word.Segment.render]

theorem toShell_literal (t : Text) : (Word.literal t).toShell = Shell.quote t := render_literal rfl t

theorem toShellGlob_literal (t : Text) : (Word.literal t).toShellGlob = Shell.quoteGlob t :=
  render_literal rfl t

theorem toShell_cond (name : Text) (choice : Choice) (arg : Word) :
    (Word.cond name choice arg .nil).toShell =
      '"' :: Shell.reference name (choice.operator ++ arg.toDoubleQuoted) ++ ['"'] := by
  simp [Word.toShell, Word.render, Word.isEmpty, Word.segments, Word.Segment.render]

theorem text_makeDirectory (dir : Operand) :
    Posix.Command.text (makeDirectory dir) = "mkdir -p ".toList ++ dir.text := rfl

theorem text_fetch (target : Word) (url : Text) :
    Posix.Command.text (fetch target url) =
      "wget -O ".toList ++ target.toShell ++ ' ' :: Shell.quote url := by
  simp [Posix.Command.text, fetch, fixed, Text.join, toShell_literal]

theorem text_unpack (archive dest : Word) :
    Posix.Command.text (unpack archive dest) =
      "tar -xf ".toList ++ archive.toShellGlob ++ " -C ".toList ++ dest.toShell := by
  simp [Posix.Command.text, unpack, fixed, Text.join]

theorem text_change (name : String) (arg dest : Word) :
    Posix.Command.text (change name arg dest) =
      name.toList ++ " -R ".toList ++ arg.toShell ++ ' ' :: dest.toShell := by
  simp [Posix.Command.text, change, fixed, Text.join]

theorem text_copy {sources : List Word} (h : sources ≠ []) (dest : Word) :
    Posix.Command.text (copy sources dest) =
      "cp -R ".toList ++ Text.join [' '] (sources.map Word.toShellGlob) ++ ' ' :: dest.toShell := by
  have htexts : (copy sources dest).map Operand.text =
      ["cp".toList, "-R".toList] ++ sources.map Word.toShellGlob ++ [dest.toShell] := by
    simp [copy, fixed]
  have hsources : sources.map Word.toShellGlob ≠ [] := by simpa using h
  rw [Posix.Command.text, htexts, Text.join_append_singleton (by simp), List.cons_append,
    Text.join_cons (by simp), List.cons_append, List.nil_append, Text.join_cons hsources]
  simp

theorem text_makeDirectories {dirs : List Word} (h : dirs ≠ []) :
    Posix.Command.text (fixed ["mkdir", "-p"] ++ dirs.map .word) =
      "mkdir -p ".toList ++ Text.join [' '] (dirs.map Word.toShell) := by
  have htexts : (fixed ["mkdir", "-p"] ++ dirs.map Operand.word).map Operand.text =
      "mkdir".toList :: "-p".toList :: dirs.map Word.toShell := by
    simp [fixed]
  have hdirs : dirs.map Word.toShell ≠ [] := by simpa using h
  rw [Posix.Command.text, htexts, Text.join_cons (by simp), Text.join_cons hdirs]
  simp

/-! ## Operands of commands -/

theorem isNamed_fixed_append {words : List String}
    (hwords : (!words.isEmpty && words.all (isPlainText ·.toList)) = true) {operands : List Operand}
    (h : ∀ o ∈ operands, o.IsNamed) : Posix.Command.IsNamed (fixed words ++ operands) := by
  rw [Bool.and_eq_true, List.all_eq_true] at hwords
  obtain ⟨hne, hplain⟩ := hwords
  refine ⟨?_, ?_⟩
  · intro hnil
    have hwords := List.map_eq_nil_iff.1 (List.append_eq_nil_iff.1 hnil).1
    rw [hwords] at hne
    cases hne
  · intro o ho
    rcases List.mem_append.1 ho with ho | ho
    · obtain ⟨t, ht, rfl⟩ := List.mem_map.1 ho
      exact hplain t ht
    · exact h o ho

theorem isNamed_makeDirectory {dir : Operand} (h : dir.IsNamed) :
    Posix.Command.IsNamed (makeDirectory dir) :=
  isNamed_fixed_append rfl (List.forall_mem_singleton.2 h)

theorem isNamed_copy {sources : List Word} {dest : Word} (hsources : ∀ w ∈ sources, w.named = true)
    (hdest : dest.named = true) : Posix.Command.IsNamed (copy sources dest) := by
  rw [copy, List.append_assoc]
  apply isNamed_fixed_append rfl
  intro o ho
  rcases List.mem_append.1 ho with ho | ho
  · obtain ⟨w, hw, rfl⟩ := List.mem_map.1 ho
    exact hsources w hw
  · rw [List.mem_singleton.1 ho]
    exact hdest

theorem isNamed_of_mem_copies {sources : List Word} {dest : Word}
    (hsources : ∀ w ∈ sources, w.named = true) (hdest : dest.named = true) {c : List Operand}
    (hc : c ∈ copies sources dest) : Posix.Command.IsNamed c := by
  cases sources with
  | nil => cases hc
  | cons w ws =>
    rw [copies, List.mem_singleton] at hc
    rw [hc]
    exact isNamed_copy hsources hdest

theorem isNamed_fetch {target : Word} (h : target.named = true) (url : Text) :
    Posix.Command.IsNamed (fetch target url) :=
  isNamed_fixed_append rfl
    (List.forall_mem_cons.2 ⟨h, List.forall_mem_singleton.2 (Word.named_literal url)⟩)

theorem isNamed_unpack {archive dest : Word} (harchive : archive.named = true)
    (hdest : dest.named = true) : Posix.Command.IsNamed (unpack archive dest) := by
  rw [unpack, List.append_assoc, List.append_assoc]
  apply isNamed_fixed_append rfl
  have htarget : Posix.Command.IsNamed (fixed ["-C"] ++ [.word dest]) :=
    isNamed_fixed_append rfl (List.forall_mem_singleton.2 hdest)
  exact List.forall_mem_cons.2 ⟨harchive, htarget.2⟩

theorem isNamed_change {name : String} (hname : isPlainText name.toList = true) {arg dest : Word}
    (harg : arg.named = true) (hdest : dest.named = true) :
    Posix.Command.IsNamed (change name arg dest) := by
  refine isNamed_fixed_append ?_
    (List.forall_mem_cons.2 ⟨harg, List.forall_mem_singleton.2 hdest⟩)
  rw [List.all_cons, hname]
  rfl

/-! ## Lines of each instruction -/

/-- Whether a line is the text of a statement that an instruction may have. -/
def IsLine (keyword : Keyword) (line : Text) : Prop :=
  ∃ st : Statement, Skeleton keyword st ∧ st.IsNamed ∧ line = st.text

namespace State.Named

variable {s : State} {raw : Text} {outcome : Outcome}

theorem isLine_env (h : s.Named) (hc : s.compileEnv raw = some outcome) :
    ∀ line ∈ outcome.lines, IsLine .env line := by
  obtain ⟨bindings, hbindings, rfl⟩ := Option.map_eq_some_iff.1 hc
  intro line hline
  simp only [List.map_map, List.mem_map] at hline
  obtain ⟨⟨name, value⟩, hb, rfl⟩ := hline
  obtain ⟨hname, hvalue⟩ := named_envBindings? hbindings _ hb
  refine ⟨_, .env name (s.expand value), ⟨by simp, List.forall_mem_singleton.2 ?_⟩, rfl⟩
  exact isNamed_fixed_append rfl
    (List.forall_mem_singleton.2 ⟨hname, h.expand hvalue⟩)

theorem isLine_argLine? (h : s.Named) {w : Word} (hw : w.named = true) {line : Text}
    (hline : s.argLine? w = some line) : IsLine .arg line := by
  rcases argLine?_eq_some hline with ⟨name, value, hcut, hname, rfl⟩ | ⟨name, -, hisName, rfl⟩
  · have hvalue := h.expand (Word.named_of_cutAt hcut hw)
    refine ⟨_, .arg name (s.expand value), ⟨by simp, List.forall_mem_singleton.2 ?_⟩, ?_⟩
    · refine isNamed_fixed_append rfl (List.forall_mem_singleton.2 ⟨hname, ?_⟩)
      simpa [Word.named, Word.names, hname] using hvalue
    · show _ = "export ".toList ++ name ++ '=' :: (Word.cond name .default (s.expand value) .nil).toShell
      rw [toShell_cond]
      simp
  · refine ⟨_, .argName name, ⟨by simp, List.forall_mem_singleton.2 ?_⟩, rfl⟩
    refine isNamed_fixed_append rfl (List.forall_mem_singleton.2 (isPlainText_iff.2 ⟨?_, ?_⟩))
    · rintro rfl
      cases hisName
    · exact fun c hc => isPlain_of_mem_name hisName hc

theorem isLine_arg (h : s.Named) (hc : s.compileArg raw = some outcome) :
    ∀ line ∈ outcome.lines, IsLine .arg line := by
  intro line hline
  obtain ⟨w, hw, hwline⟩ := exists_of_mem_mapM (compileArg_eq_some_iff.1 hc).2.1 hline
  exact h.isLine_argLine? (Word.named_lexAll s.escape raw w hw) hwline

theorem isLine_workdir (h : s.Named) (hc : s.compileWorkdir raw = some outcome) :
    ∀ line ∈ outcome.lines, IsLine .workdir line := by
  obtain ⟨-, rfl⟩ := compileWorkdir_eq_some_iff.1 hc
  have hpath := Word.named_join [' '] (Word.named_lexAll s.escape raw)
  have hdir := h.resolve (h.expand hpath)
  refine List.forall_mem_singleton.2 ⟨_, .workdir _, ⟨by simp, ?_⟩, rfl⟩
  refine List.forall_mem_cons.2 ⟨isNamed_makeDirectory hdir, List.forall_mem_singleton.2 ?_⟩
  exact isNamed_fixed_append rfl (List.forall_mem_singleton.2 hdir)

theorem isLine_volume (h : s.Named) (hc : s.compileVolume raw = some outcome) :
    ∀ line ∈ outcome.lines, IsLine .volume line := by
  obtain ⟨hne, rfl⟩ := compileVolume_eq_some_iff.1 hc
  have hwords : ∀ w ∈ (s.argumentWords raw).filter (!·.isEmpty), w.named = true := fun w hw =>
    s.named_argumentWords raw w (List.mem_of_mem_filter hw)
  generalize (s.argumentWords raw).filter (!·.isEmpty) = words at hne hwords ⊢
  have hdirs : words.map (fun w => s.resolve (s.expand w)) ≠ [] := by simpa using hne
  refine List.forall_mem_singleton.2
    ⟨_, .volume _ hdirs, ⟨by simp, List.forall_mem_singleton.2 ?_⟩, ?_⟩
  · apply isNamed_fixed_append rfl
    intro o ho
    simp only [List.map_map, List.mem_map] at ho
    obtain ⟨w, hw, rfl⟩ := ho
    exact h.resolve (h.expand (hwords w hw))
  · show _ = Posix.Command.text _
    rw [text_makeDirectories hdirs, List.map_map]
    rfl

end State.Named

/-! ## Lines of `COPY` and `ADD` -/

/-- Whether the path of a source has names only. -/
def Source.Named : Source → Prop
  | .fetched _ => True
  | .unpacked w | .copied w => w.named = true

theorem Source.named_ofAdd {w : Word} (h : w.named = true) : (Source.ofAdd w).Named := by
  rcases Source.ofAdd_cases w with heq | heq | ⟨url, heq, -⟩
  · exact heq ▸ h
  · exact heq ▸ h
  · exact heq ▸ trivial

theorem Options.named_locate (o : Options) {source : Word} (h : source.named = true) :
    (o.locate source).named = true := by
  unfold Options.locate
  split
  · exact h
  · rw [Word.named_append, Word.named_append, h, Word.named_literal, Bool.and_true, Bool.and_true]
    split
    · exact Word.named_literal _
    · decide

namespace Delivery

variable {d : Delivery} {o : Options} {files : FileView} {s : State} {sources : List Source}

/-- What the directory of a delivery is told by. -/
def directoryOperand (d : Delivery) (unpacks : Bool) : Operand :=
  if unpacks || d.intoDirectory then .word d.dest
  else
    match d.dest.text? with
    | some path => .word (.literal (Path.parent path))
    | none => .parent d.dest

/-- The shape of what a delivery with these sources does. -/
def shape (d : Delivery) (o : Options) (sources : List Source) : DeliveryShape :=
  let archives := sources.filterMap Source.archive?
  let unpacks := !archives.isEmpty
  { directory := d.directoryOperand unpacks
    copied := (sources.filterMap Source.copied?).map o.locate
    fetched := (sources.filterMap Source.url?).map fun url =>
      (if unpacks then d.inside url.fileName else d.target url.fileName, url.render)
    unpacked := archives.map o.locate
    owner := d.flags.owner
    mode := d.flags.mode
    dest := d.dest }

/-- The sources that a command copies: those whose files are not embedded. -/
def ownSources (d : Delivery) (o : Options) (files : FileView) (sources : List Source) : List Word :=
  (sources.filterMap Source.copied?).filter fun w => (d.embedded? o files w).isNone

/-- The lines of each file that is embedded. -/
def embeddedFiles (d : Delivery) (o : Options) (files : FileView) (sources : List Source) :
    List (List Text) :=
  (sources.filterMap Source.copied?).filterMap (d.embedded? o files)

/-- The shape of what a delivery does with the sources that are not embedded. -/
def shapeWith (d : Delivery) (o : Options) (files : FileView) (sources : List Source) : DeliveryShape :=
  { d.shape o sources with copied := (d.ownSources o files sources).map o.locate }

theorem text_directoryOperand (d : Delivery) (unpacks : Bool) :
    (d.directoryOperand unpacks).text = d.directory unpacks := by
  unfold directoryOperand directory
  split
  · rfl
  · cases d.dest.text? <;> rfl

theorem directoryOperand_cases (d : Delivery) (unpacks : Bool) :
    (∃ dir, d.directoryOperand unpacks = .word dir) ∨
      d.directoryOperand unpacks = .parent d.dest ∧ d.dest.text? = none := by
  unfold directoryOperand
  split
  · exact .inl ⟨_, rfl⟩
  · split
    · exact .inl ⟨_, rfl⟩
    · next hnone => exact .inr ⟨rfl, hnone⟩

theorem Named.inside (h : d.Named) (name : Text) : (d.inside name).named = true := by
  rw [Delivery.inside, Word.named_append, Word.named_withSlash h.dest, Word.named_literal]
  rfl

theorem Named.target (h : d.Named) (name : Text) : (d.target name).named = true := by
  unfold Delivery.target
  split
  · exact h.inside name
  · exact h.dest

theorem Named.directoryOperand (h : d.Named) (unpacks : Bool) :
    (d.directoryOperand unpacks).IsNamed := by
  unfold Delivery.directoryOperand
  split
  · exact h.dest
  · split
    · exact Word.named_literal _
    · exact h.dest

theorem map_text_copies (d : Delivery) (o : Options) (own : List Word) :
    (copies (own.map o.locate) d.dest).map Posix.Command.text = d.copyCommand o own := by
  cases own with
  | nil => rfl
  | cons w ws =>
    have hne : (w :: ws).map o.locate ≠ [] := by simp
    have htext := text_copy hne d.dest
    rw [List.map_map] at htext
    exact congrArg (fun t => [t]) htext

theorem map_text_ownership (d : Delivery) :
    ((d.flags.owner.map (change "chown" · d.dest)).toList ++
      (d.flags.mode.map (change "chmod" · d.dest)).toList).map Posix.Command.text = d.ownership := by
  unfold ownership
  cases d.flags.owner <;> cases d.flags.mode <;> simp [text_change]

theorem map_filter_ownFiles (d : Delivery) (o : Options) (files : FileView) (sources : List Source) :
    (((sources.filterMap Source.copied?).map fun w => (w, d.embedded? o files w)).filter
      (·.2.isNone)).map (·.1) = d.ownSources o files sources := by
  simp [ownSources, List.filter_map, Function.comp_def]

theorem filterMap_ownFiles (d : Delivery) (o : Options) (files : FileView) (sources : List Source) :
    ((sources.filterMap Source.copied?).map fun w => (w, d.embedded? o files w)).filterMap (·.2) =
      d.embeddedFiles o files sources := by
  simp only [embeddedFiles, List.filterMap_map, Function.comp_def]

/-- The lines of a delivery are the commands of its shape, the files that are embedded, and what sets owner
and mode. -/
theorem lines_compile_shapeWith (d : Delivery) (o : Options) (files : FileView) (s : State)
    (sources : List Source) :
    (d.compile o files s sources).lines =
      d.assemble ((d.shapeWith o files sources).work.map Posix.Command.text)
        (d.embeddedFiles o files sources) := by
  have hfetched : ∀ unpacks : Bool, (fun url : Url => Posix.Command.text
      (fetch (if unpacks then d.inside url.fileName else d.target url.fileName) url.render)) =
        d.fetchCommand unpacks := by
    intro unpacks
    funext url
    exact text_fetch _ _
  have hunpacked : (fun archive => Posix.Command.text (unpack (o.locate archive) d.dest)) =
      d.unpackCommand o := by
    funext archive
    exact text_unpack _ _
  simp only [Delivery.compile, filterMap_ownFiles, map_filter_ownFiles]
  simp only [DeliveryShape.work, shapeWith, shape, List.map_cons, List.cons_append, List.map_append,
    List.map_map, Function.comp_def, map_text_copies, hfetched, hunpacked, text_makeDirectory,
    text_directoryOperand]
  rfl

/-- Without embedding, a delivery has one line, the text of its shape. -/
theorem lines_compile (ho : o.embed = false) :
    (d.compile o files s sources).lines = [(d.shape o sources).statement.text] := by
  have hnone : ∀ w, d.embedded? o files w = none := d.embedded?_of_embed_eq_false ho files
  have hembedded : d.embeddedFiles o files sources = [] := by
    simp [embeddedFiles, hnone]
  have hshape : d.shapeWith o files sources = d.shape o sources := by
    simp [shapeWith, ownSources, hnone, shape]
  rw [lines_compile_shapeWith, hembedded, hshape, assemble, if_pos rfl, ← map_text_ownership,
    ← List.map_append]
  rfl

/-- The places of sources, of those that `pick` takes, have names only. -/
theorem named_located {pick : Source → Option Word}
    (hpick : ∀ src w, src.Named → pick src = some w → w.named = true)
    (hsources : ∀ src ∈ sources, src.Named) :
    ∀ w ∈ (sources.filterMap pick).map o.locate, w.named = true := by
  intro w hw
  obtain ⟨v, hv, rfl⟩ := List.mem_map.1 hw
  obtain ⟨src, hsrc, hv⟩ := List.mem_filterMap.1 hv
  exact o.named_locate (hpick src v (hsources src hsrc) hv)

theorem Named.statement (h : d.Named) (hsources : ∀ src ∈ sources, src.Named) :
    (d.shape o sources).statement.IsNamed := by
  have hcopied : ∀ w ∈ (sources.filterMap Source.copied?).map o.locate, w.named = true :=
    named_located (fun src w hsrc hw => by cases src <;> cases hw; exact hsrc) hsources
  have hunpacked : ∀ w ∈ (sources.filterMap Source.archive?).map o.locate, w.named = true :=
    named_located (fun src w hsrc hw => by cases src <;> cases hw; exact hsrc) hsources
  refine ⟨by simp [DeliveryShape.statement], ?_⟩
  intro c hc
  simp only [DeliveryShape.statement, List.mem_append, List.mem_cons, List.mem_map, Option.mem_toList,
    Option.map_eq_some_iff] at hc
  rcases hc with (((rfl | hc) | ⟨f, hf, rfl⟩) | ⟨w, hw, rfl⟩) | ⟨w, hw, rfl⟩ | ⟨w, hw, rfl⟩
  · exact isNamed_makeDirectory (h.directoryOperand _)
  · exact isNamed_of_mem_copies hcopied h.dest hc
  · obtain ⟨url, -, rfl⟩ := List.mem_map.1 hf
    refine isNamed_fetch ?_ _
    split
    · exact h.inside _
    · exact h.target _
  · exact isNamed_unpack (hunpacked w hw) h.dest
  · exact isNamed_change rfl (h.flags.owner w hw) h.dest
  · exact isNamed_change rfl (h.flags.mode w hw) h.dest

end Delivery

namespace State.Named

variable {s : State} {o : Options} {files : FileView} {raw : Text} {outcome : Outcome}

theorem exists_delivery (h : s.Named) (ho : o.embed = false) {kind : Word → Source}
    (hkind : ∀ w, w.named = true → (kind w).Named)
    (hc : s.compileDelivery o files kind raw = some outcome) :
    ∃ d : Delivery, (d.shape o (d.sources.map kind)).statement.IsNamed ∧
      outcome.lines = [(d.shape o (d.sources.map kind)).statement.text] := by
  obtain ⟨d, hd, -, rfl⟩ := compileDelivery_eq_some_iff.1 hc
  have hnamed := h.delivery? hd
  refine ⟨d, hnamed.statement ?_, Delivery.lines_compile ho⟩
  intro src hsrc
  obtain ⟨w, hw, rfl⟩ := List.mem_map.1 hsrc
  exact hkind w (hnamed.sources w hw)

theorem isLine_copy (h : s.Named) (ho : o.embed = false)
    (hc : s.compileDelivery o files .copied raw = some outcome) :
    ∀ line ∈ outcome.lines, IsLine .copy line := by
  have hkind : ∀ w, w.named = true → (Source.copied w).Named := fun _ hw => hw
  obtain ⟨d, hnamed, hlines⟩ := h.exists_delivery ho hkind hc
  have hfetched : (d.shape o (d.sources.map .copied)).fetched = [] := by
    simp [Delivery.shape, List.filterMap_map, Source.url?, Function.comp_def]
  have hunpacked : (d.shape o (d.sources.map .copied)).unpacked = [] := by
    simp [Delivery.shape, List.filterMap_map, Source.archive?, Function.comp_def]
  rw [hlines]
  refine List.forall_mem_singleton.2 ⟨_, .copy _ hfetched hunpacked ?_, hnamed, rfl⟩
  exact d.directoryOperand_cases _

theorem isLine_add (h : s.Named) (ho : o.embed = false)
    (hc : s.compileDelivery o files .ofAdd raw = some outcome) :
    ∀ line ∈ outcome.lines, IsLine .add line := by
  obtain ⟨d, hnamed, hlines⟩ := h.exists_delivery ho (fun _ hw => Source.named_ofAdd hw) hc
  rw [hlines]
  exact List.forall_mem_singleton.2 ⟨_, .add _ (d.directoryOperand_cases _), hnamed, rfl⟩

/-- The lines of an instruction that writes commands of its own, with its words in their operands. -/
theorem isLine_compile (h : s.Named) (ho : o.embed = false) {i : Instruction}
    (hkeyword : i.keyword ∈ [.env, .arg, .workdir, .volume, .copy, .add])
    (hc : s.compile o files i = some outcome) : ∀ line ∈ outcome.lines, IsLine i.keyword line := by
  unfold State.compile at hc
  generalize i.keyword = keyword at hkeyword hc ⊢
  cases keyword with
  | env => exact h.isLine_env hc
  | arg => exact h.isLine_arg hc
  | workdir => exact h.isLine_workdir hc
  | volume => exact h.isLine_volume hc
  | copy => exact h.isLine_copy ho hc
  | add => exact h.isLine_add ho hc
  | _ => simp at hkeyword

end State.Named

/-- The lines of `ENV`, `ARG`, `WORKDIR`, `VOLUME`, `COPY` and `ADD`, as a shell reads them, have the
skeleton of their instruction, whatever the build file and the options say: what comes from these is in
the operands, and in them no character is read as an operator, a blank, a comment, a tilde, a pattern or an
expansion but for those that the operands are made to have. -/
theorem read_line_of_mem_trace {o : Options} (ho : o.embed = false) {files : FileView} {input : Text}
    {step : Step} (hstep : step ∈ trace o files input)
    (hkeyword : step.instruction.keyword ∈ [.env, .arg, .workdir, .volume, .copy, .add])
    {lines : List Text} (hlines : step.lines = some lines) :
    ∀ line ∈ lines, ∃ (st : Statement) (ts : List Token), Skeleton step.instruction.keyword st ∧
      line = st.text ∧ read line = some ts ∧ st.IsRead ts := by
  obtain ⟨s, hs, heq⟩ := exists_state_of_mem_trace hstep
  intro line hline
  have hisLine : IsLine step.instruction.keyword line := by
    unfold Step.ofInstruction at heq
    split at heq
    · next outcome hc =>
      rw [heq] at hlines
      cases hlines
      exact hs.isLine_compile ho hkeyword hc line hline
    · rw [heq] at hlines
      cases hlines
  obtain ⟨st, hskeleton, hnamed, rfl⟩ := hisLine
  obtain ⟨ts, hts, hread⟩ := Statement.read_text hnamed
  exact ⟨st, ts, hskeleton, rfl, hts, hread⟩

/-- A source with a pattern and an operator. -/
theorem read_line_copied : ∃ (st : Statement) (ts : List Token), Skeleton .copy st ∧
    st.text = "mkdir -p / && cp -R /a*';b' /c".toList ∧
    read st.text = some ts ∧ st.IsRead ts := by
  have htrace : (trace {} (fun _ => none) "COPY /a*;b /c".toList).any (fun step =>
      step.instruction.keyword = .copy &&
        step.lines = some ["mkdir -p / && cp -R /a*';b' /c".toList]) = true := by decide +kernel
  obtain ⟨step, hstep, hlines⟩ := List.any_eq_true.1 htrace
  rw [Bool.and_eq_true, decide_eq_true_eq, decide_eq_true_eq] at hlines
  obtain ⟨st, ts, hskeleton, hline, hread, hisRead⟩ := read_line_of_mem_trace rfl hstep
    (by rw [hlines.1]; decide) hlines.2 _ List.mem_cons_self
  rw [hlines.1] at hskeleton
  exact ⟨st, ts, hskeleton, hline.symm, hline ▸ hread, hisRead⟩

end BuildScript
