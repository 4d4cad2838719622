import BuildScript.Proofs.Compile.Arguments
import BuildScript.Proofs.Compile.Slashes
import BuildScript.Proofs.Word.Filling

/-!
# Recorded variables and their values in arguments

The argument of `WORKDIR`, `VOLUME`, `COPY` or `ADD` may refer to a recorded variable or have its value instead
(`State.FillsArgument`). Mostly this makes no difference. But whether a path is empty, and whether a destination is
written as a directory, is decided by the words of the argument before they are expanded, so a value that is empty
or names a directory may tell more when it is written out (`State.TakenOtherwise`). In these cases, and in no
others, the outcome is another one (`State.compile_filled_iff`).
-/

namespace BuildScript

open Word (Fills)

namespace State

/-- Whether a flag of `COPY` or `ADD` is another one with a value in place of references. -/
def FillsFlag (s : State) (name value flag filled : Text) : Prop :=
  flagName filled = flagName flag ∧
    Fills name value (Word.lex s.escape (flagValue flag)) (Word.lex s.escape (flagValue filled))

/-- Whether one argument of a keyword is another one with the text `value` in place of references to `name`: it is
read as the same words, filled. -/
inductive FillsArgument (s : State) (name value : Text) : Keyword → Text → Text → Prop
  | workdir {raw filled : Text}
    (h : List.Forall₂ (Fills name value) (Word.lexAll s.escape raw) (Word.lexAll s.escape filled)) :
    FillsArgument s name value .workdir raw filled
  | volume {raw filled : Text}
    (h : List.Forall₂ (Fills name value) (s.argumentWords raw) (s.argumentWords filled)) :
    FillsArgument s name value .volume raw filled
  | delivery {keyword : Keyword} {raw filled : Text} (hkeyword : keyword ∈ [.copy, .add])
    (hflags : List.Forall₂ (s.FillsFlag name value) (writtenFlags (Text.trimStart raw))
      (writtenFlags (Text.trimStart filled)))
    (hwords : List.Forall₂ (Fills name value) (s.pathWords raw) (s.pathWords filled)) :
    FillsArgument s name value keyword raw filled

/-- The ways in which an instruction is taken for another one when its argument is filled. -/
inductive TakenOtherwise (s : State) (i : Instruction) (filled : Text) : Prop
  /-- The path becomes empty. -/
  | workdir (hkeyword : i.keyword = .workdir)
    (hpath : (Word.join [' '] (Word.lexAll s.escape i.arguments)).isEmpty = false)
    (hfilled : (Word.join [' '] (Word.lexAll s.escape filled)).isEmpty = true)
  /-- One of the directories becomes empty. -/
  | volume (hkeyword : i.keyword = .volume) {v w : Word}
    (hpair : (v, w) ∈ (s.argumentWords i.arguments).zip (s.argumentWords filled))
    (hword : v.isEmpty = false) (hfilled : w.isEmpty = true)
  /-- The destination becomes one that is written as a directory. -/
  | delivery {d : Delivery} (hd : s.Delivers i d) (hplain : d.dest.endsWith ['/'] = false) {dest : Word}
    (hdest : (s.pathWords filled).getLast? = some dest) (hfilled : namesDirectory dest = true)

variable {s : State} {name value raw filled : Text}

theorem expand_eq_of_fills (hvalue : s.env.get? name = some (.literal value)) {v w : Word}
    (h : Fills name value v w) : s.expand w = s.expand v :=
  Environment.expand_eq_of_fills hvalue h

/-! ## `WORKDIR` -/

theorem compileWorkdir_filled_iff (hvalue : s.env.get? name = some (.literal value))
    (h : List.Forall₂ (Fills name value) (Word.lexAll s.escape raw) (Word.lexAll s.escape filled)) :
    s.compileWorkdir filled = s.compileWorkdir raw ↔
      ((Word.join [' '] (Word.lexAll s.escape filled)).isEmpty = true →
        (Word.join [' '] (Word.lexAll s.escape raw)).isEmpty = true) := by
  have hpath := Fills.join [' '] h
  have hexpand := expand_eq_of_fills hvalue hpath
  unfold compileWorkdir
  simp only [hexpand]
  cases hraw : (Word.join [' '] (Word.lexAll s.escape raw)).isEmpty with
  | true => simp [hpath.isEmpty hraw]
  | false => cases hfilled : (Word.join [' '] (Word.lexAll s.escape filled)).isEmpty <;> simp

/-! ## `VOLUME` -/

/-- The directories that words name, as they are written. -/
def directories (s : State) (words : List Word) : List Text :=
  (words.filter (!·.isEmpty)).map fun w => (s.resolve (s.expand w)).toShell

theorem directories_cons (w : Word) (words : List Word) :
    s.directories (w :: words) =
      if w.isEmpty then s.directories words
      else (s.resolve (s.expand w)).toShell :: s.directories words := by
  cases h : w.isEmpty <;> simp [directories, h]

/-- No directory comes up when words are filled. -/
theorem directories_sublist (hvalue : s.env.get? name = some (.literal value)) {vs ws : List Word}
    (h : List.Forall₂ (Fills name value) vs ws) : (s.directories ws).Sublist (s.directories vs) := by
  induction h with
  | nil => exact List.Sublist.refl _
  | @cons v w vs ws hword _ ih =>
    rw [directories_cons, directories_cons, expand_eq_of_fills hvalue hword]
    cases hv : v.isEmpty with
    | true => simpa [hword.isEmpty hv] using ih
    | false =>
      cases hw : w.isEmpty with
      | true => simpa using ih.cons _
      | false => simpa using ih

theorem directories_eq_iff (hvalue : s.env.get? name = some (.literal value)) {vs ws : List Word}
    (h : List.Forall₂ (Fills name value) vs ws) :
    s.directories ws = s.directories vs ↔
      ∀ pair ∈ vs.zip ws, pair.2.isEmpty = true → pair.1.isEmpty = true := by
  induction h with
  | nil => simp
  | @cons v w vs ws hword hwords ih =>
    rw [directories_cons, directories_cons, expand_eq_of_fills hvalue hword, List.zip_cons_cons,
      List.forall_mem_cons, ← ih]
    cases hv : v.isEmpty with
    | true => simp [hword.isEmpty hv]
    | false =>
      cases hw : w.isEmpty with
      | true =>
        have hlength := (directories_sublist hvalue hwords).length_le
        simp only [if_true, Bool.false_eq_true, if_false, imp_false, not_true_eq_false, false_and, iff_false]
        intro heq
        rw [heq, List.length_cons] at hlength
        omega
      | false => simp

theorem compileVolume_eq (s : State) (raw : Text) :
    s.compileVolume raw =
      if s.directories (s.argumentWords raw) = [] then none
      else some (.ofLine ("mkdir -p ".toList ++ Text.join [' '] (s.directories (s.argumentWords raw))) s) := by
  simp only [compileVolume, directories, List.map_eq_nil_iff]

/-- Fewer texts are shorter when they are joined. -/
theorem eq_of_join_eq {sep : Char} {ts us : List Text} (h : ts.Sublist us) (hne : ts ≠ [])
    (hjoin : Text.join [sep] ts = Text.join [sep] us) : ts = us := by
  have hlength : ∀ {ts : List Text}, ts ≠ [] →
      (Text.join [sep] ts).length + 1 = (ts.map (·.length + 1)).sum := by
    intro ts hne
    induction ts with
    | nil => exact absurd rfl hne
    | cons t rest ih =>
      by_cases hrest : rest = []
      · simp [hrest, Text.join]
      · rw [Text.join_cons hrest, List.map_cons, List.sum_cons, ← ih hrest]
        simp only [List.length_append, List.length_singleton]
        omega
  -- Each text that is left out takes its own length and its separator away.
  have hsums : (ts.map (·.length + 1)).sum + us.length ≤ (us.map (·.length + 1)).sum + ts.length := by
    clear hjoin hne
    induction h with
    | slnil => exact Nat.le_refl _
    | cons u _ ih =>
      simp only [List.map_cons, List.sum_cons, List.length_cons]
      omega
    | cons_cons u _ ih =>
      simp only [List.map_cons, List.sum_cons, List.length_cons]
      omega
  have hne' : us ≠ [] := fun hnil => hne (List.sublist_nil.1 (hnil ▸ h))
  have hsame : (ts.map (·.length + 1)).sum = (us.map (·.length + 1)).sum := by
    rw [← hlength hne, ← hlength hne', hjoin]
  exact h.eq_of_length_le (by omega)

theorem compileVolume_filled_iff (hvalue : s.env.get? name = some (.literal value))
    (h : List.Forall₂ (Fills name value) (s.argumentWords raw) (s.argumentWords filled)) :
    s.compileVolume filled = s.compileVolume raw ↔
      ∀ pair ∈ (s.argumentWords raw).zip (s.argumentWords filled),
        pair.2.isEmpty = true → pair.1.isEmpty = true := by
  have hsublist := directories_sublist hvalue h
  rw [← directories_eq_iff hvalue h, compileVolume_eq, compileVolume_eq]
  generalize s.directories (s.argumentWords raw) = dirs at hsublist ⊢
  generalize s.directories (s.argumentWords filled) = dirs' at hsublist ⊢
  refine ⟨fun heq => ?_, fun heq => by rw [heq]⟩
  by_cases hnone : dirs' = []
  · rw [if_pos hnone] at heq
    split at heq
    · next hraw => rw [hnone, hraw]
    · cases heq
  · have hraw : dirs ≠ [] := fun hnil => hnone (List.sublist_nil.1 (hnil ▸ hsublist))
    rw [if_neg hnone, if_neg hraw, Option.some_inj] at heq
    have hlines := List.singleton_inj.1 (congrArg Outcome.lines heq)
    exact eq_of_join_eq hsublist hnone (List.append_cancel_left hlines)

/-! ## `COPY` and `ADD` -/

theorem setFlag_filled (hvalue : s.env.get? name = some (.literal value)) {flag flag' : Text}
    (h : s.FillsFlag name value flag flag') (flags : DeliveryFlags) :
    s.setFlag flags flag' = s.setFlag flags flag := by
  rw [setFlag_eq, setFlag_eq, h.1, expand_eq_of_fills hvalue h.2]

theorem foldl_setFlag_filled (hvalue : s.env.get? name = some (.literal value)) {written written' : List Text}
    (h : List.Forall₂ (s.FillsFlag name value) written written') (flags : DeliveryFlags) :
    written'.foldl s.setFlag flags = written.foldl s.setFlag flags := by
  induction h generalizing flags with
  | nil => rfl
  | cons hflag _ ih => rw [List.foldl_cons, List.foldl_cons, setFlag_filled hvalue hflag, ih]

theorem map_expand_filled (hvalue : s.env.get? name = some (.literal value)) {vs ws : List Word}
    (h : List.Forall₂ (Fills name value) vs ws) : ws.map s.expand = vs.map s.expand := by
  induction h with
  | nil => rfl
  | cons hword _ ih => rw [List.map_cons, List.map_cons, expand_eq_of_fills hvalue hword, ih]

/-- A destination that is filled is the same place. It may be written with a slash at its end that it had not. -/
theorem destination_filled (hvalue : s.env.get? name = some (.literal value)) {v w : Word}
    (h : Fills name value v w) :
    s.destination w =
      if namesDirectory w then (s.destination v).withSlash else s.destination v := by
  have hexpand := expand_eq_of_fills hvalue h
  unfold destination
  rw [hexpand]
  cases hw : namesDirectory w with
  | true =>
    cases hv : namesDirectory v with
    | true => simp [Word.withSlash_withSlash]
    | false => simp
  | false =>
    have hv : namesDirectory v = false := by
      by_contra hne
      rw [namesDirectory_of_fills h (by simpa using hne)] at hw
      cases hw
    simp [hv]

theorem slash_mem_of_text?_resolve {w : Word} {path : Text} (h : (s.resolve w).text? = some path) :
    '/' ∈ path := by
  rcases s.resolve_cases w with ⟨t, -, heq⟩ | ⟨hnone, heq⟩
  · rw [heq, Word.text?_literal] at h
    rw [← Option.some.inj h]
    exact List.mem_cons_self
  · rw [heq, hnone] at h
    cases h

/-- A delivery whose argument is filled has another destination at most. -/
theorem delivery?_filled (hvalue : s.env.get? name = some (.literal value))
    (hflags : List.Forall₂ (s.FillsFlag name value) (writtenFlags (Text.trimStart raw))
      (writtenFlags (Text.trimStart filled)))
    (hwords : List.Forall₂ (Fills name value) (s.pathWords raw) (s.pathWords filled)) :
    (s.delivery? raw = none ∧ s.delivery? filled = none) ∨
      ∃ d dest, s.delivery? raw = some d ∧ (s.pathWords filled).getLast? = some dest ∧
        s.delivery? filled =
          some { d with dest := if namesDirectory dest then d.dest.withSlash else d.dest } := by
  have hreverse := List.forall₂_reverse_iff.2 hwords
  rw [← List.head?_reverse, delivery?_eq, delivery?_eq]
  generalize (s.pathWords raw).reverse = vs at hreverse ⊢
  generalize (s.pathWords filled).reverse = ws at hreverse ⊢
  cases hreverse with
  | nil => exact .inl ⟨rfl, rfl⟩
  | @cons dest dest' _ _ hdest hsources =>
    cases hsources with
    | nil => exact .inl ⟨rfl, rfl⟩
    | cons hlast hothers =>
      refine .inr ⟨_, dest', rfl, rfl, congrArg some ?_⟩
      have hall := List.forall₂_reverse_iff.2 (List.Forall₂.cons hlast hothers)
      simp only [deliveryOf, foldl_setFlag_filled hvalue hflags, map_expand_filled hvalue hall,
        destination_filled hvalue hdest]

variable {o : Options} {files : FileView} {i : Instruction}

/-- A slash that a destination gets makes another outcome of a delivery. -/
theorem Delivers.compile_withSlash_ne {d : Delivery} (hd : s.Delivers i d)
    (hplain : d.dest.endsWith ['/'] = false) (sources : List Source) :
    ({ d with dest := d.dest.withSlash } : Delivery).compile o files s sources ≠
      d.compile o files s sources := by
  have hintoSlash : ({ d with dest := d.dest.withSlash } : Delivery) = d.intoSlash := by
    rw [Word.withSlash, if_neg (by simp [hplain])]
    rfl
  have hpath : ∀ path, d.dest.text? = some path → '/' ∈ path := by
    obtain ⟨_, dest, -, -, rfl⟩ := delivery?_eq_some_iff.1 hd.read
    intro path hpath
    -- A destination without a slash at its end was not given one, so it is resolved only.
    have hresolved : s.destination dest = s.resolve (s.expand dest) := by
      unfold destination
      split
      · next hnames =>
        have hends := Word.endsWith_withSlash (s.resolve (s.expand dest))
        have hdest : (s.destination dest).endsWith ['/'] = false := hplain
        rw [destination, if_pos hnames, hends] at hdest
        cases hdest
      · rfl
    have hdest : (s.destination dest).text? = some path := hpath
    rw [hresolved] at hdest
    exact slash_mem_of_text?_resolve hdest
  rw [hintoSlash]
  exact fun heq => Delivery.lines_compile_intoSlash_ne hplain hpath s sources (congrArg Outcome.lines heq)

theorem compileDelivery_filled_iff (hvalue : s.env.get? name = some (.literal value))
    (hkeyword : i.keyword ∈ [.copy, .add])
    (hflags : List.Forall₂ (s.FillsFlag name value) (writtenFlags (Text.trimStart i.arguments))
      (writtenFlags (Text.trimStart filled)))
    (hwords : List.Forall₂ (Fills name value) (s.pathWords i.arguments) (s.pathWords filled)) :
    s.compileDelivery o files i.sourceOf filled = s.compileDelivery o files i.sourceOf i.arguments ↔
      ∀ d, s.Delivers i d → ∀ dest, (s.pathWords filled).getLast? = some dest →
        namesDirectory dest = true → d.dest.endsWith ['/'] = true := by
  rcases delivery?_filled hvalue hflags hwords with ⟨hnone, hnone'⟩ | ⟨d, dest, hread, hlast, hread'⟩
  · refine iff_of_true ?_ fun d hd => ?_
    · rw [compileDelivery, compileDelivery, hnone, hnone']
    · rw [hd.read] at hnone
      cases hnone
  · have honly : (∀ e, s.Delivers i e → ∀ w, (s.pathWords filled).getLast? = some w →
        namesDirectory w = true → e.dest.endsWith ['/'] = true) ↔
        (s.Delivers i d → namesDirectory dest = true → d.dest.endsWith ['/'] = true) := by
      refine ⟨fun h hd => h d hd dest hlast, fun h e he w hw => ?_⟩
      obtain rfl := Option.some.inj (hread.symm.trans he.read)
      obtain rfl := Option.some.inj (hlast.symm.trans hw)
      exact h he
    rw [honly, compileDelivery, compileDelivery, hread, hread']
    simp only
    cases hstage : d.flags.fromStage with
    | true =>
      rw [if_pos rfl, if_pos rfl]
      exact iff_of_true rfl fun hd => absurd hd.stage (by simp [hstage])
    | false =>
      have hd : s.Delivers i d := ⟨hkeyword, hread, hstage⟩
      rw [if_neg Bool.false_ne_true, if_neg Bool.false_ne_true, Option.some_inj]
      have hsame : ({ d with dest := d.dest } : Delivery) = d := rfl
      cases hnames : namesDirectory dest with
      | false =>
        rw [if_neg Bool.false_ne_true, hsame]
        exact iff_of_true rfl fun _ h => absurd h Bool.false_ne_true
      | true =>
        rw [if_pos rfl]
        cases hends : d.dest.endsWith ['/'] with
        | true =>
          rw [Word.withSlash, if_pos hends, hsame]
          exact iff_of_true rfl fun _ _ => rfl
        | false =>
          exact iff_of_false (hd.compile_withSlash_ne hends _) fun h => absurd (h hd rfl) Bool.false_ne_true

/-! ## Instructions -/

/-- An instruction whose argument refers to a recorded variable, and the one whose argument has its value instead,
have the same outcome and leave the same state, unless the second is taken otherwise: its path or one of its
directories is empty where the reference was not, or its destination is written as a directory where it was not
one. In each of these cases the outcomes differ. -/
theorem compile_filled_iff (hvalue : s.env.get? name = some (.literal value))
    (hfills : s.FillsArgument name value i.keyword i.arguments filled) (o : Options) (files : FileView) :
    s.compile o files { i with arguments := filled } = s.compile o files i ↔ ¬s.TakenOtherwise i filled := by
  obtain ⟨keyword, spelled, raw, line, source⟩ := i
  cases hfills with
  | workdir hwords =>
    show s.compileWorkdir filled = s.compileWorkdir raw ↔ _
    rw [compileWorkdir_filled_iff hvalue hwords]
    constructor
    · rintro h (⟨-, hpath, hempty⟩ | ⟨hkeyword, -, -, -⟩ | ⟨hd, -, -, -⟩)
      · rw [h hempty] at hpath
        cases hpath
      · cases hkeyword
      · exact absurd hd.keyword (by simp)
    · intro h hempty
      by_contra hpath
      exact h (.workdir rfl (by simpa using hpath) hempty)
  | volume hwords =>
    show s.compileVolume filled = s.compileVolume raw ↔ _
    rw [compileVolume_filled_iff hvalue hwords]
    constructor
    · rintro h (⟨hkeyword, -, -⟩ | ⟨-, hpair, hword, hempty⟩ | ⟨hd, -, -, -⟩)
      · cases hkeyword
      · rw [h _ hpair hempty] at hword
        cases hword
      · exact absurd hd.keyword (by simp)
    · rintro h ⟨v, w⟩ hpair hempty
      by_contra hword
      exact h (.volume rfl hpair (by simpa using hword) hempty)
  | delivery hkeyword hflags hwords =>
    rw [compile_eq_compileDelivery hkeyword, compile_eq_compileDelivery (i := ⟨_, _, filled, _, _⟩) hkeyword]
    refine (compileDelivery_filled_iff hvalue hkeyword hflags hwords).trans ?_
    constructor
    · rintro h (⟨rfl, -, -⟩ | ⟨rfl, -, -, -⟩ | ⟨hd, hplain, hdest, hnames⟩)
      · exact absurd hkeyword (by simp)
      · exact absurd hkeyword (by simp)
      · rw [h _ hd _ hdest hnames] at hplain
        cases hplain
    · intro h d hd dest hdest hnames
      by_contra hplain
      exact h (.delivery hd (by simpa using hplain) hdest hnames)

/-- A value in the middle of a destination. -/
theorem compile_filled_iff_middle :
    let s := (Step.ofInstruction {} (fun _ => none) (.initial '\\')
      ⟨.env, [], "D=lib".toList, 1, []⟩).state
    let i : Instruction := ⟨.copy, [], "a $\x7bD\x7d/x".toList, 2, []⟩
    let filled := "a lib/x".toList
    s.env.get? "D".toList = some (.literal "lib".toList) ∧
      s.FillsArgument "D".toList "lib".toList i.keyword i.arguments filled ∧
      s.compile {} (fun _ => none) { i with arguments := filled } = s.compile {} (fun _ => none) i := by
  intro s i filled
  have hvalue : s.env.get? "D".toList = some (.literal "lib".toList) := by decide +kernel
  have hflags : writtenFlags (Text.trimStart i.arguments) = [] ∧ writtenFlags (Text.trimStart filled) = [] := by
    decide +kernel
  have hwords : List.Forall₂ (Fills "D".toList "lib".toList) (s.pathWords i.arguments) (s.pathWords filled) := by
    have hbefore : "a ".toList.all (fun c => isBlank c || Shell.isPlain c) = true := by decide
    exact Word.fills_of_bare (.inl rfl) (by decide) hbefore "/x".toList (by decide +kernel) (by decide +kernel)
  have hfills : s.FillsArgument "D".toList "lib".toList i.keyword i.arguments filled :=
    .delivery (by decide) (by rw [hflags.1, hflags.2]; exact .nil) hwords
  refine ⟨hvalue, hfills, (compile_filled_iff hvalue hfills {} fun _ => none).2 ?_⟩
  rintro (⟨hkeyword, -, -⟩ | ⟨hkeyword, -, -, -⟩ | ⟨-, -, hdest, hnames⟩)
  · cases hkeyword
  · cases hkeyword
  · have hlast : (s.pathWords filled).getLast? = some (.literal "lib/x".toList) := by decide +kernel
    rw [← Option.some.inj (hlast.symm.trans hdest)] at hnames
    exact absurd hnames (by decide +kernel)

/-- A value that is written as a directory, and the empty value as a path and as one of several directories. -/
theorem compile_filled_ne :
    let s := (Step.ofInstruction {} (fun _ => none) (.initial '\\')
      ⟨.env, [], "D=sub/. E=".toList, 1, []⟩).state
    let lines (keyword : Keyword) (raw : Text) :=
      (Step.ofInstruction {} (fun _ => none) s ⟨keyword, [], raw, 2, []⟩).lines
    s.env.get? "D".toList = some (.literal "sub/.".toList) ∧ s.env.get? "E".toList = some (.literal []) ∧
      s.FillsArgument "D".toList "sub/.".toList .copy "a $\x7bD\x7d".toList "a sub/.".toList ∧
      lines .copy "a $\x7bD\x7d".toList =
        some ["mkdir -p / && cp -R \"$\x7bDOCKER2SH_CONTEXT\x7d\"/a /sub".toList] ∧
      lines .copy "a sub/.".toList =
        some ["mkdir -p /sub/ && cp -R \"$\x7bDOCKER2SH_CONTEXT\x7d\"/a /sub/".toList] ∧
      s.FillsArgument "E".toList [] .workdir "$\x7bE\x7d".toList (Shell.quote []) ∧
      lines .workdir "$\x7bE\x7d".toList = some ["mkdir -p / && cd /".toList] ∧
      lines .workdir (Shell.quote []) = none ∧
      s.FillsArgument "E".toList [] .volume "/d $\x7bE\x7d".toList ("/d ".toList ++ Shell.quote []) ∧
      lines .volume "/d $\x7bE\x7d".toList = some ["mkdir -p /d /".toList] ∧
      lines .volume ("/d ".toList ++ Shell.quote []) = some ["mkdir -p /d".toList] := by
  intro s lines
  have hflags : writtenFlags (Text.trimStart "a $\x7bD\x7d".toList) = [] ∧
      writtenFlags (Text.trimStart "a sub/.".toList) = [] := by
    decide +kernel
  have hcopy : List.Forall₂ (Fills "D".toList "sub/.".toList) (s.pathWords "a $\x7bD\x7d".toList)
      (s.pathWords "a sub/.".toList) := by
    have hbefore : "a ".toList.all (fun c => isBlank c || Shell.isPlain c) = true := by decide
    exact Word.fills_of_bare (.inl rfl) (by decide) hbefore [] (by decide +kernel) (by decide +kernel)
  have hworkdir : List.Forall₂ (Fills "E".toList []) (Word.lexAll s.escape "$\x7bE\x7d".toList)
      (Word.lexAll s.escape (Shell.quote [])) := by
    have hbefore : [].all (fun c => isBlank c || Shell.isPlain c) = true := rfl
    exact Word.fills_of_bare (.inl rfl) (by decide) hbefore [] (by decide +kernel) (by decide +kernel)
  have hvolume : List.Forall₂ (Fills "E".toList []) (s.argumentWords "/d $\x7bE\x7d".toList)
      (s.argumentWords ("/d ".toList ++ Shell.quote [])) := by
    have hbefore : "/d ".toList.all (fun c => isBlank c || Shell.isPlain c) = true := by decide
    exact Word.fills_of_bare (.inl rfl) (by decide) hbefore [] (by decide +kernel) (by decide +kernel)
  exact ⟨by decide +kernel, by decide +kernel,
    .delivery (by decide) (by rw [hflags.1, hflags.2]; exact .nil) hcopy, by decide +kernel, by decide +kernel,
    .workdir hworkdir, by decide +kernel, by decide +kernel, .volume hvolume, by decide +kernel,
    by decide +kernel⟩

end State

end BuildScript
