import Mathlib.Data.List.Forall2
import BuildScript.Compile
import BuildScript.Proofs.Word.Names

/-!
# What is accepted

An instruction is left out if its argument is not accepted. For each kind of instruction that can be left out
it is told once which arguments are accepted and what then comes of them, as an equivalence
(`compileWorkdir_eq_some_iff` and the ones behind it). What all outcomes have in common is shown from these,
without a look at how an argument is read.
-/

namespace BuildScript

namespace State

variable {s : State} {o : Options} {files : FileView} {raw : Text} {outcome : Outcome}

/-! ## Places and users -/

/-- A path below the working directory, unless it begins with a slash, before it is normalized. -/
def joined (s : State) (path : Word) : Word :=
  if path.startsWith ['/'] then path else s.workingDir.withSlash ++ path

theorem of_joined {P : Word → Prop} {path : Word} (hpath : path.startsWith ['/'] = true → P path)
    (hbelow : P (s.workingDir.withSlash ++ path)) : P (s.joined path) := by
  unfold joined
  split
  · next h => exact hpath h
  · exact hbelow

/-- Only a path without references is normalized. -/
theorem resolve_cases (s : State) (path : Word) :
    (∃ t, (s.joined path).text? = some t ∧ s.resolve path = .literal (Path.normalize t)) ∨
      (s.joined path).text? = none ∧ s.resolve path = s.joined path := by
  unfold resolve
  simp only
  split
  · next t htext => exact .inl ⟨t, htext, rfl⟩
  · next hnone => exact .inr ⟨hnone, rfl⟩

theorem compileWorkdir_eq_some_iff :
    s.compileWorkdir raw = some outcome ↔
      (Word.join [' '] (Word.lexAll s.escape raw)).isEmpty = false ∧
        outcome =
          let dir := s.resolve (s.expand (Word.join [' '] (Word.lexAll s.escape raw)))
          { lines := [chain ["mkdir -p ".toList ++ dir.toShell, "cd ".toList ++ dir.toShell]]
            state := { s with workdir := some dir } } := by
  simp only [compileWorkdir, Option.ite_none_left_eq_some, Bool.not_eq_true, Option.some.injEq,
    eq_comm (b := outcome)]

theorem compileVolume_eq_some_iff :
    s.compileVolume raw = some outcome ↔
      (s.argumentWords raw).filter (!·.isEmpty) ≠ [] ∧
        outcome = .ofLine ("mkdir -p ".toList ++ Text.join [' ']
          (((s.argumentWords raw).filter (!·.isEmpty)).map fun w => (s.resolve (s.expand w)).toShell)) s := by
  simp only [compileVolume, Option.ite_none_left_eq_some, ne_eq, Option.some.injEq, eq_comm (b := outcome)]

theorem compileUser_eq_some_iff :
    s.compileUser raw = some outcome ↔ ∃ spec others, Word.lexAll s.escape raw = spec :: others ∧
      (userOf (s.expand spec)).isEmpty = false ∧
      (isRoot (userOf (s.expand spec)) = true ∧
          outcome =
            { lines := ["# USER ".toList ++ (userOf (s.expand spec)).toShell ++
                ": RUN lines execute ".toList ++ "as the invoking user".toList]
              state := { s with user := none } } ∨
        isRoot (userOf (s.expand spec)) = false ∧
          outcome =
            { lines := ["# USER ".toList ++ (userOf (s.expand spec)).toShell ++
                ": RUN lines execute ".toList ++
                ("via su -s /bin/sh ".toList ++ (userOf (s.expand spec)).toShell)]
              state := { s with user := some (userOf (s.expand spec)) } }) := by
  rw [compileUser]
  cases hwords : Word.lexAll s.escape raw with
  | nil => simp
  | cons spec others =>
    cases hempty : (userOf (s.expand spec)).isEmpty with
    | true => simp [hempty]
    | false => cases hroot : isRoot (userOf (s.expand spec)) <;> simp [hempty, hroot, eq_comm (a := outcome)]

/-! ## Variables -/

/-- Words are bindings if each is cut at an equals sign, behind a name. -/
theorem bindings?_eq_some_iff_forall₂ {ws : List Word} {bindings : List Binding} :
    bindings? ws = some bindings ↔
      List.Forall₂ (fun w b => w.cutAt '=' = some b ∧ isName b.1 = true) ws bindings := by
  induction ws generalizing bindings with
  | nil =>
    rw [List.forall₂_nil_left_iff, bindings?, Option.some_inj]
    exact eq_comm
  | cons w ws ih =>
    rw [List.forall₂_cons_left_iff, bindings?]
    constructor
    · intro h
      split at h
      · next name value hcut =>
        split at h
        · next hname =>
          obtain ⟨others, hothers, rfl⟩ := Option.map_eq_some_iff.1 h
          exact ⟨(name, value), others, ⟨hcut, hname⟩, ih.1 hothers, rfl⟩
        · cases h
      · cases h
    · rintro ⟨⟨name, value⟩, others, ⟨hcut, hname⟩, hothers, rfl⟩
      rw [hcut]
      simp only [hname, if_true, ih.2 hothers, Option.map_some]

theorem exists_word_of_mem_bindings? {ws : List Word} {bindings : List Binding}
    (h : bindings? ws = some bindings) {b : Binding} (hb : b ∈ bindings) :
    ∃ w ∈ ws, w.cutAt '=' = some b ∧ isName b.1 = true := by
  have hall := bindings?_eq_some_iff_forall₂.1 h
  clear h
  induction hall with
  | nil => cases hb
  | cons hcut _ ih =>
    rcases List.mem_cons.1 hb with rfl | hb
    · exact ⟨_, List.mem_cons_self, hcut⟩
    · obtain ⟨w, hw, hwcut⟩ := ih hb
      exact ⟨w, List.mem_cons_of_mem _ hw, hwcut⟩

/-! Which form an argument of `ENV` has is told by its text before the first blank. -/

theorem envBindings?_of_mem {escape : Char} (h : '=' ∈ (Text.beforeBlank raw).1) :
    envBindings? escape raw = bindings? (Word.lexAll escape raw) := by
  simp only [envBindings?, if_neg (List.ne_nil_of_mem h), if_pos h]

theorem envBindings?_of_notMem {escape : Char} (h : '=' ∉ (Text.beforeBlank raw).1) :
    envBindings? escape raw =
      if isName (Text.beforeBlank raw).1 = true ∧ Text.trim (Text.beforeBlank raw).2 ≠ [] then
        some [((Text.beforeBlank raw).1,
          Word.join [' '] (Word.lexAll escape (Text.trim (Text.beforeBlank raw).2)))]
      else none := by
  by_cases hnil : (Text.beforeBlank raw).1 = []
  · have hname : isName (Text.beforeBlank raw).1 = false := by rw [hnil]; rfl
    simp only [envBindings?, if_pos hnil, hname, Bool.false_eq_true, false_and, if_false]
  · simp only [envBindings?, if_neg hnil, if_neg h]

theorem envBindings?_eq_some {escape : Char} {bindings : List Binding}
    (h : envBindings? escape raw = some bindings) :
    '=' ∈ (Text.beforeBlank raw).1 ∧ bindings? (Word.lexAll escape raw) = some bindings ∨
      '=' ∉ (Text.beforeBlank raw).1 ∧ isName (Text.beforeBlank raw).1 = true ∧
        Text.trim (Text.beforeBlank raw).2 ≠ [] ∧
        bindings = [((Text.beforeBlank raw).1,
          Word.join [' '] (Word.lexAll escape (Text.trim (Text.beforeBlank raw).2)))] := by
  by_cases hform : '=' ∈ (Text.beforeBlank raw).1
  · exact .inl ⟨hform, envBindings?_of_mem hform ▸ h⟩
  · rw [envBindings?_of_notMem hform] at h
    split at h
    · next hname => exact .inr ⟨hform, hname.1, hname.2, (Option.some.inj h).symm⟩
    · cases h

theorem named_envBindings? {escape : Char} {bindings : List Binding}
    (h : envBindings? escape raw = some bindings) :
    ∀ b ∈ bindings, isName b.1 = true ∧ b.2.named = true := by
  intro b hb
  rcases envBindings?_eq_some h with ⟨-, hwords⟩ | ⟨-, hname, -, rfl⟩
  · obtain ⟨w, hw, hcut, hname⟩ := exists_word_of_mem_bindings? hwords hb
    exact ⟨hname, Word.named_of_cutAt hcut (Word.named_lexAll escape raw w hw)⟩
  · rw [List.mem_singleton.1 hb]
    exact ⟨hname, Word.named_join [' '] (Word.named_lexAll escape _)⟩

/-- A word of `ARG` is a name with a default, or a name. -/
theorem argLine?_eq_some {w : Word} {line : Text} (h : s.argLine? w = some line) :
    (∃ name value, w.cutAt '=' = some (name, value) ∧ isName name = true ∧
      line = "export ".toList ++ name ++ '=' :: '"' ::
        Shell.reference name (Choice.default.operator ++ (s.expand value).toDoubleQuoted) ++ ['"']) ∨
    ∃ name, w.text? = some name ∧ isName name = true ∧ line = "export ".toList ++ name := by
  rw [argLine?] at h
  split at h
  · next name value hcut =>
    split at h
    · next hname => exact .inl ⟨name, value, hcut, hname, (Option.some.inj h).symm⟩
    · cases h
  · split at h
    · next name htext =>
      split at h
      · next hname => exact .inr ⟨name, htext, hname, (Option.some.inj h).symm⟩
      · cases h
    · cases h

theorem compileArg_eq_some_iff :
    s.compileArg raw = some outcome ↔ outcome.lines ≠ [] ∧
      (Word.lexAll s.escape raw).mapM s.argLine? = some outcome.lines ∧ outcome.state = s := by
  rw [compileArg]
  obtain ⟨lines, state⟩ := outcome
  cases hlines : (Word.lexAll s.escape raw).mapM s.argLine? with
  | none => simp
  | some written =>
    cases written with
    | nil => simp +contextual [eq_comm]
    | cons line rest =>
      simp only [Option.some.injEq, Outcome.mk.injEq]
      constructor
      · rintro ⟨rfl, rfl⟩
        exact ⟨List.cons_ne_nil _ _, rfl, rfl⟩
      · rintro ⟨-, rfl, rfl⟩
        exact ⟨rfl, rfl⟩

/-! ## Deliveries -/

/-- Where a destination is: the place that it is resolved to, with a slash at its end if it is written as a
directory. -/
def destination (s : State) (dest : Word) : Word :=
  if namesDirectory dest then (s.resolve (s.expand dest)).withSlash else s.resolve (s.expand dest)

theorem destination_induction {P : Word → Prop} {dest : Word} (h : P (s.resolve (s.expand dest)))
    (hslash : ∀ w, P w → P w.withSlash) : P (s.destination dest) := by
  unfold destination
  split
  · exact hslash _ h
  · exact h

/-- The last word behind the flags is the destination, and the ones before it, at least one, are the sources. -/
theorem delivery?_eq_some_iff_readFlags {d : Delivery} :
    s.delivery? raw = some d ↔ ∃ sources dest, sources ≠ [] ∧
      s.argumentWords (s.readFlags {} (Text.trimStart raw)).2 = sources ++ [dest] ∧
      d =
        { flags := (s.readFlags {} (Text.trimStart raw)).1
          sources := sources.map s.expand
          dest := s.destination dest } := by
  rw [delivery?]
  obtain ⟨flags, rest⟩ := s.readFlags {} (Text.trimStart raw)
  dsimp only
  constructor
  · intro hd
    split at hd
    · next dest last others hreverse =>
      refine ⟨(last :: others).reverse, dest, by simp, ?_, (Option.some.inj hd).symm⟩
      rw [← List.reverse_cons, ← hreverse, List.reverse_reverse]
    · cases hd
  · rintro ⟨sources, dest, hne, hwords, rfl⟩
    obtain ⟨front, last, rfl⟩ := List.eq_nil_or_concat sources |>.resolve_left hne
    rw [hwords, List.concat_eq_append, List.reverse_append, List.reverse_append]
    simp [destination]

theorem compileDelivery_eq_some_iff {kind : Word → Source} :
    s.compileDelivery o files kind raw = some outcome ↔
      ∃ d, s.delivery? raw = some d ∧ d.flags.fromStage = false ∧
        outcome = d.compile o files s (d.sources.map kind) := by
  rw [compileDelivery]
  cases s.delivery? raw with
  | none => simp
  | some d => cases hstage : d.flags.fromStage <;> simp [hstage, eq_comm (a := outcome)]

end State

/-- Only a source whose text is a URL is fetched. -/
theorem Source.ofAdd_cases (w : Word) :
    Source.ofAdd w = .copied w ∨ Source.ofAdd w = .unpacked w ∨
      ∃ url, Source.ofAdd w = .fetched url ∧ ∃ t, w.text? = some t ∧ Url.ofText? t = some url := by
  unfold Source.ofAdd
  split
  · exact .inl rfl
  · next t htext =>
    split
    · next url hurl => exact .inr (.inr ⟨url, rfl, t, htext, hurl⟩)
    · split
      · exact .inr (.inl rfl)
      · exact .inl rfl

theorem Delivery.embedded?_of_embed_eq_false (d : Delivery) {o : Options} (h : o.embed = false) (files : FileView)
    (source : Word) : d.embedded? o files source = none := by
  rw [Delivery.embedded?, embedPath?, h]
  rfl

end BuildScript
