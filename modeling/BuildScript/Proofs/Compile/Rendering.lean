import BuildScript.Failure
import BuildScript.Proofs.Compile.Clean
import BuildScript.Proofs.Url.Unbroken

/-!
# When a script has no text

A script is not rendered if one of its lines is broken. A line is broken only by what the options name, by
a NUL of the build file, or by an item of a JSON array of the very instruction that the line is of: the
escapes of JSON are the one way to write a line feed into an argument. No state that instructions leave
behind, no URL and no embedded file can break a line (`unbroken_statements`), so a script has a text unless
there is one of these causes (`text_compile`).
-/

namespace BuildScript

open Text (Unbroken unbroken_join)

/-! ## Arrays in arguments -/

/-- What stands behind the flags of an argument of `COPY` and `ADD`. -/
def afterFlags (raw : Text) : Text :=
  match raw with
  | '-' :: '-' :: rest => afterFlags (Text.trimStart (Text.beforeBlank rest).2)
  | _ => raw
termination_by raw.length
decreasing_by
  have h1 := (List.dropWhile_suffix isBlank (l := (Text.beforeBlank rest).2)).length_le
  have h2 := (List.dropWhile_suffix (!isBlank ·) (l := rest)).length_le
  simp only [Text.trimStart, Text.beforeBlank, List.length_cons] at *
  omega

/-- The state decides what flags mean, but not where they end. -/
theorem State.readFlags_snd (s : State) (flags : DeliveryFlags) (raw : Text) :
    (s.readFlags flags raw).2 = afterFlags raw := by
  fun_induction State.readFlags s flags raw with
  | case1 flags rest ih => rw [ih, ← afterFlags]
  | case2 flags raw hnot => rw [afterFlags.eq_2 raw hnot]

theorem afterFlags_subset (raw : Text) : afterFlags raw ⊆ raw := by
  fun_induction afterFlags raw with
  | case1 rest ih =>
    have hrest : Text.trimStart (Text.beforeBlank rest).2 ⊆ rest :=
      List.Subset.trans (Text.trimStart_subset _) (Text.beforeBlank_subset rest).2
    exact List.subset_cons_of_subset _ (List.subset_cons_of_subset _ (List.Subset.trans ih hrest))
  | case2 raw hnot => exact List.Subset.refl raw

namespace Instruction

/-- The items of the JSON array that an instruction has for an argument, if it has one. -/
def arrayItems? (i : Instruction) : Option (List Text) :=
  match i.keyword with
  | .run | .cmd | .entrypoint | .volume => execItems? i.arguments
  | .copy | .add => execItems? (afterFlags (Text.trimStart i.arguments))
  | _ => none

end Instruction

/-- Whether the items of an array that a text is, if it is one, can each stand on one line. -/
def ItemsUnbroken (items : Option (List Text)) : Prop := ∀ ts, items = some ts → ∀ t ∈ ts, Unbroken t

/-! ## Lines of each instruction -/

theorem unbroken_chain {commands : List Text} (h : ∀ c ∈ commands, Unbroken c) :
    Unbroken (chain commands) :=
  unbroken_join (by simp) h

theorem State.unbroken_ofLine {s : State} {p : Prop} [Decidable p] {line : Text} (hline : Unbroken line)
    {outcome : Outcome} (hc : (if p then none else some (Outcome.ofLine line s)) = some outcome) :
    ∀ l ∈ outcome.lines, Unbroken l := by
  split at hc
  · cases hc
  · cases hc
    exact List.forall_mem_singleton.2 hline

namespace Keyword

theorem unbroken_name (keyword : Keyword) : Unbroken keyword.name := by
  cases keyword <;> exact Text.unbroken_of_not_isBroken rfl

end Keyword

namespace State.IsClean

variable {s : State} {o : Options} {files : FileView} {raw : Text} {outcome : Outcome}

/-- What a command comes to under the user and in the directory of a state. -/
theorem unbroken_runLine (h : s.IsClean) {line : Text} (hline : Unbroken line) :
    Unbroken (s.runLine line) := by
  have huser : Unbroken (s.asUser line) := by
    unfold asUser
    split
    · exact hline
    · next user huser => simp [(h.user user huser).toShell, Shell.unbroken_quote hline]
  have hplaced : Unbroken (s.inWorkdir (s.asUser line)) := by
    unfold inWorkdir
    split
    · exact huser
    · next dir hdir =>
      have hcd : Unbroken ("cd ".toList ++ dir.toShell) := by simp [(h.workdir dir hdir).toShell]
      exact unbroken_chain (List.forall_mem_cons.2 ⟨hcd, List.forall_mem_singleton.2 huser⟩)
  simp only [runLine]
  split
  · simp [hplaced]
  · exact hplaced

theorem unbroken_compileRun (h : s.IsClean) (hraw : Unbroken raw) (hitems : ItemsUnbroken (execItems? raw))
    (hc : s.compileRun raw = some outcome) : ∀ line ∈ outcome.lines, Unbroken line :=
  unbroken_ofLine (h.unbroken_runLine (Command.unbroken_commandLine hraw hitems)) hc

theorem unbroken_compileStart (hraw : Unbroken raw) (hitems : ItemsUnbroken (execItems? raw))
    {keyword : Keyword} (hc : s.compileStart keyword raw = some outcome) :
    ∀ line ∈ outcome.lines, Unbroken line := by
  refine unbroken_ofLine ?_ hc
  simp [comment, keyword.unbroken_name, Command.unbroken_commandLine hraw hitems]

theorem unbroken_compileFrom (hraw : Unbroken raw) (hc : s.compileFrom raw = some outcome) :
    ∀ line ∈ outcome.lines, Unbroken line := by
  refine unbroken_ofLine ?_ hc
  simp [comment, unbroken_normalizeBlanks hraw]

theorem unbroken_compileMetadata (hraw : Unbroken raw) (keyword : Keyword) :
    ∀ line ∈ (s.compileMetadata keyword raw).lines, Unbroken line := by
  refine List.forall_mem_singleton.2 ?_
  simp [comment, keyword.unbroken_name, unbroken_normalizeBlanks hraw]

theorem unbroken_compileExpose (hraw : Unbroken raw) :
    ∀ line ∈ (s.compileExpose raw).lines, Unbroken line := by
  refine List.forall_mem_singleton.2 ?_
  simp [comment, unbroken_normalizeBlanks hraw]

theorem unbroken_compileEnv (h : s.IsClean) (hraw : Unbroken raw)
    (hc : s.compileEnv raw = some outcome) : ∀ line ∈ outcome.lines, Unbroken line := by
  obtain ⟨bindings, hbindings, rfl⟩ := Option.map_eq_some_iff.1 hc
  intro line hline
  simp only [List.map_map, List.mem_map] at hline
  obtain ⟨⟨name, value⟩, hb, rfl⟩ := hline
  obtain ⟨hname, hvalue⟩ := isClean_envBindings? hraw hbindings _ hb
  unfold exportLine
  simp [unbroken_of_isName hname, (h.expand hvalue).toShell]

theorem unbroken_argLine? (h : s.IsClean) {w : Word} (hw : w.IsClean) {line : Text}
    (hline : s.argLine? w = some line) : Unbroken line := by
  rcases argLine?_eq_some hline with ⟨name, value, hcut, hname, rfl⟩ | ⟨name, -, hname, rfl⟩
  · have hvalue := (h.expand (hw.of_cutAt hcut).2).toDoubleQuoted
    have hreference : Unbroken (Shell.reference name
        (Choice.default.operator ++ (s.expand value).toDoubleQuoted)) :=
      Word.unbroken_reference hname (by simp [Choice.operator, hvalue])
    simp [unbroken_of_isName hname, hreference]
  · simp [unbroken_of_isName hname]

theorem unbroken_compileArg (h : s.IsClean) (hraw : Unbroken raw)
    (hc : s.compileArg raw = some outcome) : ∀ line ∈ outcome.lines, Unbroken line := by
  intro line hline
  obtain ⟨w, hw, hwline⟩ := exists_of_mem_mapM (compileArg_eq_some_iff.1 hc).2.1 hline
  exact h.unbroken_argLine? (Word.isClean_lexAll s.escape hraw w hw) hwline

theorem unbroken_compileWorkdir (h : s.IsClean) (hraw : Unbroken raw)
    (hc : s.compileWorkdir raw = some outcome) : ∀ line ∈ outcome.lines, Unbroken line := by
  obtain ⟨-, rfl⟩ := compileWorkdir_eq_some_iff.1 hc
  have hpath : (Word.join [' '] (Word.lexAll s.escape raw)).IsClean :=
    Word.IsClean.join (by simp) (Word.isClean_lexAll s.escape hraw)
  have hdir := (h.resolve (h.expand hpath)).toShell
  refine List.forall_mem_singleton.2 (unbroken_chain ?_)
  exact List.forall_mem_cons.2 ⟨by simp [hdir], List.forall_mem_singleton.2 (by simp [hdir])⟩

theorem unbroken_compileUser (h : s.IsClean) (hraw : Unbroken raw)
    (hc : s.compileUser raw = some outcome) : ∀ line ∈ outcome.lines, Unbroken line := by
  obtain ⟨spec, others, hwords, -, houtcome⟩ := compileUser_eq_some_iff.1 hc
  have hspec := Word.isClean_lexAll s.escape hraw spec (hwords ▸ List.mem_cons_self)
  have huser := (userOf (h.expand hspec)).toShell
  obtain ⟨-, rfl⟩ | ⟨-, rfl⟩ := houtcome
  · exact List.forall_mem_singleton.2 (by simp [huser])
  · exact List.forall_mem_singleton.2 (by simp [huser])

/-- The words of an argument are clean unless it is an array with a broken item. -/
theorem argumentWords (s : State) (hraw : Unbroken raw) (hitems : ItemsUnbroken (execItems? raw)) :
    ∀ w ∈ s.argumentWords raw, w.IsClean := by
  intro w hw
  unfold State.argumentWords at hw
  split at hw
  · next items hexec =>
    obtain ⟨t, ht, rfl⟩ := List.mem_map.1 hw
    exact Word.isClean_literal (hitems items hexec t ht)
  · exact Word.isClean_lexAll s.escape hraw w hw

theorem unbroken_compileVolume (h : s.IsClean) (hraw : Unbroken raw)
    (hitems : ItemsUnbroken (execItems? raw)) (hc : s.compileVolume raw = some outcome) :
    ∀ line ∈ outcome.lines, Unbroken line := by
  refine unbroken_ofLine ?_ hc
  have hdirs : ∀ t ∈ ((s.argumentWords raw).filter (!·.isEmpty)).map
      (fun w => (s.resolve (s.expand w)).toShell), Unbroken t := by
    intro t ht
    obtain ⟨w, hw, rfl⟩ := List.mem_map.1 ht
    exact (h.resolve (h.expand (argumentWords s hraw hitems w (List.mem_of_mem_filter hw)))).toShell
  have hjoined : Unbroken (Text.join [' '] (((s.argumentWords raw).filter (!·.isEmpty)).map
      fun w => (s.resolve (s.expand w)).toShell)) := unbroken_join (by simp) hdirs
  simp [hjoined]

end State.IsClean

/-! ## Lines of `COPY` and `ADD` -/

/-- Whether the words of flags are clean. -/
structure DeliveryFlags.IsClean (flags : DeliveryFlags) : Prop where
  owner : ∀ w, flags.owner = some w → w.IsClean
  mode : ∀ w, flags.mode = some w → w.IsClean

structure Delivery.IsClean (d : Delivery) : Prop where
  flags : d.flags.IsClean
  sources : ∀ w ∈ d.sources, w.IsClean
  dest : d.dest.IsClean

/-- Whether the path or the URL of a source can stand on one line. -/
def Source.IsClean : Source → Prop
  | .fetched url => Unbroken url.render ∧ Unbroken url.fileName
  | .unpacked w | .copied w => w.IsClean

theorem Source.isClean_ofAdd {w : Word} (h : w.IsClean) : (Source.ofAdd w).IsClean := by
  rcases Source.ofAdd_cases w with heq | heq | ⟨url, heq, t, -, hurl⟩
  · exact heq ▸ h
  · exact heq ▸ h
  · exact heq ▸ ⟨Url.unbroken_render hurl, Url.unbroken_fileName hurl⟩

namespace State.IsClean

variable {s : State} {raw : Text}

theorem setFlag (h : s.IsClean) {flags : DeliveryFlags} (hflags : flags.IsClean) {flag : Text}
    (hflag : Unbroken flag) : (s.setFlag flags flag).IsClean := by
  have hvalue : Unbroken ((Text.cutAt '=' flag).getD (flag, [])).2 := by
    cases hcut : Text.cutAt '=' flag with
    | none => exact Text.unbroken_nil
    | some pieces => exact hflag.mono (Text.subset_of_cutAt hcut).2
  have hword := h.expand (Word.isClean_lex s.escape hvalue)
  unfold State.setFlag
  simp only
  split
  · exact ⟨fun w hw => Option.some.inj hw ▸ hword, hflags.mode⟩
  · split
    · exact ⟨hflags.owner, fun w hw => Option.some.inj hw ▸ hword⟩
    · split
      · exact ⟨hflags.owner, hflags.mode⟩
      · exact hflags

theorem readFlags (h : s.IsClean) {flags : DeliveryFlags} (hflags : flags.IsClean)
    (hraw : Unbroken raw) : (s.readFlags flags raw).1.IsClean := by
  fun_induction State.readFlags s flags raw with
  | case1 flags rest ih =>
    simp only [Text.unbroken_cons] at hraw
    obtain ⟨-, -, hrest⟩ := hraw
    obtain ⟨hflag, hafter⟩ := Text.beforeBlank_subset rest
    apply ih
    · exact h.setFlag hflags (hrest.mono hflag)
    · exact hrest.mono (List.Subset.trans (Text.trimStart_subset _) hafter)
  | case2 flags raw hnot => exact hflags

theorem delivery? (h : s.IsClean) (hraw : Unbroken raw)
    (hitems : ItemsUnbroken (execItems? (afterFlags (Text.trimStart raw)))) {d : Delivery}
    (hd : s.delivery? raw = some d) : d.IsClean := by
  have hnone : DeliveryFlags.IsClean {} := ⟨fun _ hw => (nomatch hw), fun _ hw => (nomatch hw)⟩
  have hstart : Unbroken (Text.trimStart raw) := hraw.mono (Text.trimStart_subset raw)
  have hrest : Unbroken (afterFlags (Text.trimStart raw)) := hstart.mono (afterFlags_subset _)
  obtain ⟨sources, dest, -, hwords, rfl⟩ := delivery?_eq_some_iff_readFlags.1 hd
  rw [State.readFlags_snd] at hwords
  have hall : ∀ w ∈ sources ++ [dest], w.IsClean := fun w hw =>
    argumentWords s hrest hitems w (hwords ▸ hw)
  refine ⟨h.readFlags hnone hstart, ?_, ?_⟩
  · intro w hw
    obtain ⟨v, hv, rfl⟩ := List.mem_map.1 hw
    exact h.expand (hall v (List.mem_append_left _ hv))
  · refine destination_induction (P := Word.IsClean) (h.resolve (h.expand (hall dest (by simp)))) ?_
    exact fun w hw => hw.withSlash

end State.IsClean

/-! ### Embedded files -/

theorem Base64.letter_ne (n : Nat) : letter n ≠ '\n' ∧ letter n ≠ '\x00' := by
  by_cases h : n < 64
  · have hall : ∀ k < 64, letter k ≠ '\n' ∧ letter k ≠ '\x00' := by decide
    exact hall n h
  · have hletter : letter n = '/' := by
      unfold letter
      rw [if_neg (by omega), if_neg (by omega), if_neg (by omega), if_neg (by omega)]
    rw [hletter]
    decide

theorem Base64.unbroken_encode (bytes : Bytes) : Unbroken (encode bytes) := by
  fun_induction encode bytes with
  | case1 => exact Text.unbroken_nil
  | case2 a => simp [letter_ne]
  | case3 a b => simp [letter_ne]
  | case4 a b c rest ih => simp [letter_ne, ih]

/-- What a file holds cannot break the lines that it is written on, however it is packed. -/
theorem unbroken_embedLines (pack : Bytes → Bytes) {target : Text} (h : Unbroken target) (bytes : Bytes) :
    ∀ line ∈ embedLines pack target bytes, Unbroken line := by
  intro line hline
  rcases List.mem_cons.1 hline with rfl | hline
  · exact Text.unbroken_append.2 ⟨Text.unbroken_of_not_isBroken rfl, h⟩
  · rcases List.mem_append.1 hline with hline | hline
    · have hbody := (List.sublist_flatten_of_mem hline).subset
      rw [embedBody, flatten_chunks] at hbody
      exact (Base64.unbroken_encode _).mono hbody
    · rw [List.mem_singleton.1 hline]
      exact Text.unbroken_of_not_isBroken rfl

namespace Delivery.IsClean

variable {d : Delivery} {o : Options} {files : FileView} {s : State}

theorem inside (h : d.IsClean) {name : Text} (hname : Unbroken name) : (d.inside name).IsClean :=
  h.dest.withSlash.append (Word.isClean_literal hname)

theorem target (h : d.IsClean) {name : Text} (hname : Unbroken name) : (d.target name).IsClean := by
  unfold Delivery.target
  split
  · exact h.inside hname
  · exact h.dest

theorem unbroken_embedded? (h : d.IsClean) (hdir : ∀ dir, o.contextDir = some dir → Unbroken dir)
    {source : Word} (hsource : source.IsClean) {lines : List Text}
    (hlines : d.embedded? o files source = some lines) : ∀ line ∈ lines, Unbroken line := by
  simp only [Delivery.embedded?, Option.bind_eq_bind, Option.bind_eq_some_iff] at hlines
  obtain ⟨path, hpath, name, hname, bytes, -, heq⟩ := hlines
  cases heq
  have hpath : Unbroken path := by
    unfold embedPath? at hpath
    split at hpath
    · obtain ⟨text, htext, hpath⟩ := Option.bind_eq_some_iff.1 hpath
      split at hpath
      · cases hpath
      · cases hpath
        refine Path.unbroken_below ?_ (hsource.text? htext)
        cases hcontext : o.contextDir with
        | none => exact Text.unbroken_of_not_isBroken rfl
        | some dir => exact hdir dir hcontext
    · cases hpath
  exact unbroken_embedLines o.pack (h.target (Path.unbroken_fileName? hpath hname)).toShell bytes

theorem directory (h : d.IsClean) (unpacks : Bool) : Unbroken (d.directory unpacks) := by
  unfold Delivery.directory
  split
  · exact h.dest.toShell
  · split
    · next path hpath =>
      exact (Word.isClean_literal (Path.unbroken_parent (h.dest.text? hpath))).toShell
    · simp [h.dest.toShell]

theorem ownership (h : d.IsClean) : ∀ c ∈ d.ownership, Unbroken c := by
  have hcommand : ∀ (name : String) (arg : Word), Unbroken name.toList → arg.IsClean →
      Unbroken (name.toList ++ " -R ".toList ++ arg.toShell ++ ' ' :: d.dest.toShell) := by
    intro name arg hname harg
    simp [hname, harg.toShell, h.dest.toShell]
  intro c hc
  simp only [Delivery.ownership, List.mem_append, Option.mem_toList, Option.map_eq_some_iff] at hc
  rcases hc with ⟨w, hw, rfl⟩ | ⟨w, hw, rfl⟩
  · exact hcommand "chown" w (by simp) (h.flags.owner w hw)
  · exact hcommand "chmod" w (by simp) (h.flags.mode w hw)

theorem locate {source : Word} (hdir : ∀ dir, o.contextDir = some dir → Unbroken dir)
    (hsource : source.IsClean) : (o.locate source).IsClean := by
  have hslash : (Word.literal ['/']).IsClean := Word.isClean_literal (by simp)
  unfold Options.locate
  split
  · exact hsource
  · refine Word.IsClean.append (Word.IsClean.append ?_ hslash) hsource
    split
    · next dir hcontext =>
      exact Word.isClean_literal ((hdir dir hcontext).mono (Text.dropTrailing_subset _ _))
    · exact ⟨by decide, Text.unbroken_nil⟩

/-- What holds of clean sources holds of what is picked of them. -/
theorem forall_mem_filterMap {α : Type} {pick : Source → Option α} {p : α → Prop}
    (hpick : ∀ src a, src.IsClean → pick src = some a → p a) {sources : List Source}
    (hsources : ∀ src ∈ sources, src.IsClean) : ∀ a ∈ sources.filterMap pick, p a := by
  intro a ha
  obtain ⟨src, hsrc, ha⟩ := List.mem_filterMap.1 ha
  exact hpick src a (hsources src hsrc) ha

theorem unbroken_assemble (h : d.IsClean) {commands : List Text} (hcommands : ∀ c ∈ commands, Unbroken c)
    {embedded : List (List Text)} (hembedded : ∀ lines ∈ embedded, ∀ line ∈ lines, Unbroken line) :
    ∀ line ∈ d.assemble commands embedded, Unbroken line := by
  unfold Delivery.assemble
  split
  · exact List.forall_mem_singleton.2
      (unbroken_chain (List.forall_mem_append.2 ⟨hcommands, h.ownership⟩))
  · refine List.forall_mem_append.2 ⟨List.forall_mem_cons.2 ⟨unbroken_chain hcommands, ?_⟩, ?_⟩
    · intro line hline
      obtain ⟨lines, hlines, hline⟩ := List.mem_flatten.1 hline
      exact hembedded lines hlines line hline
    · split
      · exact fun _ hline => (nomatch hline)
      · exact List.forall_mem_singleton.2 (unbroken_chain h.ownership)

theorem unbroken_copyCommand (h : d.IsClean) {ws : List Word} (hws : ∀ w ∈ ws, (o.locate w).IsClean) :
    ∀ c ∈ d.copyCommand o ws, Unbroken c := by
  have hoperands : ∀ t ∈ ws.map (fun w => (o.locate w).toShellGlob), Unbroken t := by
    intro t ht
    obtain ⟨w, hw, rfl⟩ := List.mem_map.1 ht
    exact (hws w hw).toShellGlob
  have hjoined := unbroken_join (Text.unbroken_of_not_isBroken (t := [' ']) rfl) hoperands
  unfold Delivery.copyCommand
  split
  · exact fun _ hc => (nomatch hc)
  · exact List.forall_mem_singleton.2 (by simp [hjoined, h.dest.toShell])

theorem unbroken_fetchCommand (h : d.IsClean) {url : Url} (hrender : Unbroken url.render)
    (hname : Unbroken url.fileName) (unpacks : Bool) : Unbroken (d.fetchCommand unpacks url) := by
  have htarget : (if unpacks then d.inside url.fileName else d.target url.fileName).IsClean := by
    split
    · exact h.inside hname
    · exact h.target hname
  unfold Delivery.fetchCommand
  simp [htarget.toShell, Shell.unbroken_quote hrender]

theorem unbroken_unpackCommand (h : d.IsClean) {archive : Word} (harchive : (o.locate archive).IsClean) :
    Unbroken (d.unpackCommand o archive) := by
  unfold Delivery.unpackCommand
  simp [harchive.toShellGlob, h.dest.toShell]

theorem unbroken_compile (h : d.IsClean) (hdir : ∀ dir, o.contextDir = some dir → Unbroken dir)
    {sources : List Source} (hsources : ∀ src ∈ sources, src.IsClean) :
    ∀ line ∈ (d.compile o files s sources).lines, Unbroken line := by
  have hcopied : ∀ w ∈ sources.filterMap Source.copied?, w.IsClean :=
    forall_mem_filterMap (fun src w hsrc hw => by cases src <;> cases hw; exact hsrc) hsources
  have harchives : ∀ w ∈ sources.filterMap Source.archive?, w.IsClean :=
    forall_mem_filterMap (fun src w hsrc hw => by cases src <;> cases hw; exact hsrc) hsources
  have hurls : ∀ url ∈ sources.filterMap Source.url?, Unbroken url.render ∧ Unbroken url.fileName :=
    forall_mem_filterMap (fun src w hsrc hw => by cases src <;> cases hw; exact hsrc) hsources
  apply h.unbroken_assemble
  · intro c hc
    simp only [List.cons_append, List.mem_cons, List.mem_append, List.mem_map] at hc
    rcases hc with rfl | (hc | ⟨url, hurl, rfl⟩) | ⟨archive, harchive, rfl⟩
    · unfold makeCommand
      simp [h.directory]
    · refine h.unbroken_copyCommand ?_ c hc
      intro w hw
      simp only [List.mem_map, List.mem_filter] at hw
      obtain ⟨_, ⟨⟨v, hv, rfl⟩, -⟩, rfl⟩ := hw
      exact locate hdir (hcopied v hv)
    · exact h.unbroken_fetchCommand (hurls url hurl).1 (hurls url hurl).2 _
    · exact h.unbroken_unpackCommand (locate hdir (harchives archive harchive))
  · intro lines hlines
    simp only [List.mem_filterMap, List.mem_map] at hlines
    obtain ⟨_, ⟨w, hw, rfl⟩, hlines⟩ := hlines
    exact h.unbroken_embedded? hdir (hcopied w (List.mem_filterMap.2 hw)) hlines

end Delivery.IsClean

/-! ## Lines of a script -/

namespace State.IsClean

variable {s : State} {o : Options} {files : FileView} {raw : Text} {outcome : Outcome}

theorem unbroken_compileDelivery (h : s.IsClean) (hdir : ∀ dir, o.contextDir = some dir → Unbroken dir)
    (hraw : Unbroken raw) (hitems : ItemsUnbroken (execItems? (afterFlags (Text.trimStart raw))))
    {kind : Word → Source} (hkind : ∀ w, w.IsClean → (kind w).IsClean)
    (hc : s.compileDelivery o files kind raw = some outcome) :
    ∀ line ∈ outcome.lines, Unbroken line := by
  obtain ⟨d, hd, -, rfl⟩ := compileDelivery_eq_some_iff.1 hc
  have hclean := h.delivery? hraw hitems hd
  refine hclean.unbroken_compile hdir ?_
  intro src hsrc
  obtain ⟨w, hw, rfl⟩ := List.mem_map.1 hsrc
  exact hkind w (hclean.sources w hw)

/-- An instruction breaks no line but by items of its array. -/
theorem unbroken_compile (h : s.IsClean) (hdir : ∀ dir, o.contextDir = some dir → Unbroken dir)
    {i : Instruction} (hi : Unbroken i.arguments) (hitems : ItemsUnbroken i.arrayItems?)
    (hc : s.compile o files i = some outcome) : ∀ line ∈ outcome.lines, Unbroken line := by
  unfold State.compile at hc
  unfold Instruction.arrayItems? at hitems
  generalize i.keyword = keyword at hc hitems
  cases keyword with
  | «from» => exact unbroken_compileFrom hi hc
  | run => exact h.unbroken_compileRun hi hitems hc
  | copy =>
    have hkind : ∀ w, w.IsClean → (Source.copied w).IsClean := fun _ hw => hw
    exact h.unbroken_compileDelivery hdir hi hitems hkind hc
  | add => exact h.unbroken_compileDelivery hdir hi hitems (fun _ hw => Source.isClean_ofAdd hw) hc
  | workdir => exact h.unbroken_compileWorkdir hi hc
  | env => exact h.unbroken_compileEnv hi hc
  | arg => exact h.unbroken_compileArg hi hc
  | user => exact h.unbroken_compileUser hi hc
  | label | maintainer =>
    cases hc
    exact unbroken_compileMetadata hi _
  | expose =>
    cases hc
    exact unbroken_compileExpose hi
  | volume => exact h.unbroken_compileVolume hi hitems hc
  | cmd | entrypoint => exact unbroken_compileStart hi hitems hc
  | unknown => cases hc

end State.IsClean

variable {o : Options} {files : FileView} {input : Text}

/-- The statements of an instruction are not broken by those before it, nor by files. -/
theorem unbroken_statements (hinput : '\x00' ∉ input)
    (hdir : ∀ dir, o.contextDir = some dir → Unbroken dir) {step : Step}
    (hstep : step ∈ trace o files input) (hitems : ItemsUnbroken step.instruction.arrayItems?) :
    ∀ line ∈ step.statements, Unbroken line := by
  obtain ⟨hsource, harguments⟩ := Instruction.unbroken hinput (mem_instructions_of_mem_trace hstep)
  obtain ⟨s, hs, heq⟩ := exists_isClean_of_mem_trace hinput hstep
  unfold Step.ofInstruction at heq
  split at heq
  · next outcome hc =>
    rw [heq]
    exact hs.unbroken_compile hdir harguments hitems hc
  · rw [heq]
    refine List.forall_mem_singleton.2 ?_
    unfold Step.skippedComment
    simp [hsource]

theorem unbroken_prologue (hshell : Unbroken o.shell)
    (hname : ∀ name, o.sourceName = some name → Unbroken name) (usesContext : Bool) :
    ∀ line ∈ (prologue o usesContext).prologue, Unbroken line := by
  have hnew : ∀ line ∈ (Script.new o.shell).prologue, Unbroken line :=
    List.forall_mem_cons.2 ⟨by simp [hshell], List.forall_mem_singleton.2 (by simp)⟩
  have hcontext : Unbroken contextLine := Text.unbroken_of_not_isBroken (by decide)
  unfold prologue
  cases hsome : o.sourceName with
  | none =>
    cases usesContext with
    | false => exact hnew
    | true => exact List.forall_mem_append.2 ⟨hnew, List.forall_mem_singleton.2 hcontext⟩
  | some name =>
    have hnamed : ∀ line ∈ ((Script.new o.shell).naming name).prologue, Unbroken line := by
      refine List.forall_mem_append.2 ⟨hnew, List.forall_mem_singleton.2 ?_⟩
      simp [hname name hsome]
    cases usesContext with
    | false => exact hnamed
    | true => exact List.forall_mem_append.2 ⟨hnamed, List.forall_mem_singleton.2 hcontext⟩

namespace Script

theorem text_eq_ok {s : Script} (h : ∀ line ∈ s.lines, Unbroken line) :
    s.text = .ok (Text.ofLines s.lines) := by
  have hnone : s.lines.findIdx? isBroken = none :=
    List.findIdx?_eq_none_iff.2 fun line hline => isBroken_eq_false_iff.2 (h line hline)
  rw [text, render, hnone]
  rfl

theorem text_eq_error {s : Script} {line : Text} (hline : line ∈ s.lines) (h : ¬Unbroken line) :
    ∃ e, s.text = .error (.render e) := by
  have hbroken : isBroken line = true := by
    by_contra hne
    exact h (isBroken_eq_false_iff.1 (by simpa using hne))
  cases hfind : s.lines.findIdx? isBroken with
  | none =>
    have hfalse := List.findIdx?_eq_none_iff.1 hfind line hline
    rw [hbroken] at hfalse
    cases hfalse
  | some n => exact ⟨⟨n⟩, by rw [text, render, hfind]; rfl⟩

end Script

/-- What can keep a script from being rendered. -/
inductive RenderCause (o : Options) (input : Text) : Prop where
  | input (h : '\x00' ∈ input)
  | shell (h : ¬Unbroken o.shell)
  | sourceName (name : Text) (hname : o.sourceName = some name) (h : ¬Unbroken name)
  | contextDir (dir : Text) (hdir : o.contextDir = some dir) (h : ¬Unbroken dir)
  /-- An instruction has an array for an argument, and one of the items is broken. -/
  | item (i : Instruction) (hi : i ∈ instructions input) (items : List Text)
    (hitems : i.arrayItems? = some items) (t : Text) (ht : t ∈ items) (h : ¬Unbroken t)

/-- A script is rendered, with all its lines, unless there is a cause. Whatever the files hold that are
written into it, and whatever its instructions leave behind, is none. -/
theorem text_compile (o : Options) (files : FileView) (input : Text) :
    (compile o files input).text = .ok (Text.ofLines (compile o files input).lines) ∨
      RenderCause o input := by
  by_cases hcause : RenderCause o input
  · exact .inr hcause
  · refine .inl (Script.text_eq_ok ?_)
    have hinput : '\x00' ∉ input := fun h => hcause (.input h)
    have hshell : Unbroken o.shell := by
      by_contra h
      exact hcause (.shell h)
    have hname : ∀ name, o.sourceName = some name → Unbroken name := by
      intro name hname
      by_contra h
      exact hcause (.sourceName name hname h)
    have hdir : ∀ dir, o.contextDir = some dir → Unbroken dir := by
      intro dir hdir
      by_contra h
      exact hcause (.contextDir dir hdir h)
    intro line hline
    rw [compile_eq_scriptOf, Script.lines, prologue_scriptOf, statements_scriptOf] at hline
    rcases List.mem_append.1 hline with hline | hline
    · exact unbroken_prologue hshell hname _ line hline
    · obtain ⟨step, hstep, hline⟩ := List.mem_flatMap.1 hline
      refine unbroken_statements hinput hdir hstep ?_ line hline
      intro items hitems t ht
      by_contra h
      exact hcause (.item _ (mem_instructions_of_mem_trace hstep) items hitems t ht h)

/-! ## Items that do break a line -/

namespace Shell

theorem subset_quote (t : Text) : t ⊆ quote t := by
  unfold quote
  split
  · next hnil =>
    rw [hnil]
    exact List.nil_subset _
  · split
    · exact List.Subset.refl t
    · intro c hc
      refine List.mem_append_left _ (List.mem_cons_of_mem _ (List.mem_flatMap.2 ⟨c, hc, ?_⟩))
      unfold escapeSingle
      split
      · next hquote => simp [hquote]
      · exact List.mem_singleton_self c

theorem subset_joinWords {ts : List Text} {t : Text} (h : t ∈ ts) : t ⊆ joinWords ts := by
  induction ts with
  | nil => cases h
  | cons u ts ih =>
    cases ts with
    | nil =>
      rw [List.mem_singleton.1 h]
      exact subset_quote u
    | cons v ts =>
      show t ⊆ quote u ++ [' '] ++ joinWords (v :: ts)
      rcases List.mem_cons.1 h with rfl | h
      · rw [List.append_assoc]
        exact List.subset_append_of_subset_left _ (subset_quote t)
      · exact List.subset_append_of_subset_right _ (ih h)

end Shell

namespace State

theorem subset_runLine (s : State) (line : Text) : line ⊆ s.runLine line := by
  have huser : line ⊆ s.asUser line := by
    unfold asUser
    split
    · exact List.Subset.refl line
    · exact List.subset_append_of_subset_right _ (Shell.subset_quote line)
  have hplaced : line ⊆ s.inWorkdir (s.asUser line) := by
    unfold inWorkdir
    split
    · exact huser
    · exact List.subset_append_of_subset_right _ huser
  simp only [runLine]
  split
  · exact List.subset_cons_of_subset _ (List.subset_append_of_subset_left _ hplaced)
  · exact hplaced

/-- The items of an array that is a command stand in the line of the instruction. -/
theorem subset_of_compile_exec (o : Options) (files : FileView) (s : State) {i : Instruction}
    (hkeyword : i.keyword ∈ [.run, .cmd, .entrypoint]) {items : List Text}
    (hitems : execItems? i.arguments = some items) {t : Text} (ht : t ∈ items) :
    ∃ line, s.compile o files i = some (.ofLine line s) ∧ t ⊆ line := by
  have hcommand : Command.ofText i.arguments = .exec items := by rw [Command.ofText, hitems]
  have hempty : (Command.exec items).isEmpty = false := by
    cases items with
    | nil => cases ht
    | cons u us => rfl
  have hline : t ⊆ (Command.exec items).commandLine := Shell.subset_joinWords ht
  have hstart : ∀ keyword, ∃ line,
      s.compileStart keyword i.arguments = some (.ofLine line s) ∧ t ⊆ line := by
    intro keyword
    refine ⟨comment (keyword.name ++ " (run manually): ".toList ++ (Command.exec items).commandLine),
      by simp [compileStart, hcommand, hempty], ?_⟩
    exact List.subset_cons_of_subset _ (List.subset_cons_of_subset _
      (List.subset_append_of_subset_right _ hline))
  unfold State.compile
  generalize i.keyword = keyword at hkeyword
  cases keyword with
  | run =>
    exact ⟨s.runLine (Command.exec items).commandLine, by simp [compileRun, hcommand, hempty],
      List.Subset.trans hline (s.subset_runLine _)⟩
  | cmd | entrypoint => exact hstart _
  | _ => simp at hkeyword

end State

/-- A broken item of a command does keep the script from being rendered. -/
theorem text_compile_eq_error {i : Instruction} (hi : i ∈ instructions input)
    (hkeyword : i.keyword ∈ [.run, .cmd, .entrypoint]) {items : List Text}
    (hitems : i.arrayItems? = some items) {t : Text} (ht : t ∈ items) (hbroken : ¬Unbroken t) :
    ∃ e, (compile o files input).text = .error (.render e) := by
  have hexec : execItems? i.arguments = some items := by
    unfold Instruction.arrayItems? at hitems
    generalize i.keyword = keyword at hkeyword hitems
    cases keyword with
    | run | cmd | entrypoint => exact hitems
    | _ => simp at hkeyword
  have hinstructions : (trace o files input).map Step.instruction = instructions input :=
    map_instruction_traceFrom _ _
  rw [← hinstructions] at hi
  obtain ⟨step, hstep, rfl⟩ := List.mem_map.1 hi
  obtain ⟨before, after, hsplit⟩ := List.append_of_mem hstep
  obtain ⟨line, hc, hsubset⟩ := State.subset_of_compile_exec o files
    (stateAfter (.initial (escapeOf input)) before) hkeyword hexec ht
  have hof := eq_ofInstruction_of_traceFrom_eq hsplit
  rw [Step.ofInstruction, hc] at hof
  have hline : line ∈ (compile o files input).lines := by
    rw [compile_eq_scriptOf, Script.lines, statements_scriptOf]
    refine List.mem_append_right _ (List.mem_flatMap.2 ⟨step, hstep, ?_⟩)
    rw [hof]
    exact List.mem_singleton_self line
  exact Script.text_eq_error hline fun h => hbroken (h.mono hsubset)

end BuildScript
