import BuildScript.Proofs.Word.Names

/-!
# Substituting recorded variables

`ENV` records words, not values: what a recorded word refers to has its value from before the first
instruction. So there are two sets of variables, those that the script starts with and those that the
build file has made of them by now, and the recorded words tell one from the other (`Environment.Holds`).
A word that is expanded means to the first set what it means to the second (`value_expand`), provided that
its modifiers can be decided by looking at the recorded words; instructions keep that up (`Holds.record`).

Where all recorded words are literal, they tell values and decide every modifier, so that a word is expanded
to one that means with any variables what it means with the recorded values in their place
(`State.value_expand_override`).
-/

namespace BuildScript

/-- The variables after an instruction that binds names to values, all of them evaluated before it. -/
def Vars.assign (σ : Vars) (bindings : List Binding) : Vars :=
  bindings.foldl (fun τ b => τ.set b.1 (b.2.value σ)) σ

@[simp] theorem Vars.text_set (σ : Vars) (name other value : Text) :
    (σ.set name value).text other = if other = name then value else σ.text other := by
  unfold text set
  split <;> rfl

theorem Word.value_of_isEmpty {w : Word} (h : w.isEmpty = true) (ρ : Vars) : w.value ρ = [] := by
  cases w with
  | nil => rfl
  | _ => cases h

namespace Environment

/-- The bindings of an instruction as they are recorded. -/
def bind (env : Environment) (bindings : List Binding) : List Binding :=
  bindings.map fun (name, value) => (name, env.expand value)

/-- What is recorded after an instruction. -/
def record (env : Environment) (bindings : List Binding) : Environment :=
  (env.bind bindings).foldl (fun env (name, value) => env.set name value) env

theorem record_eq_append (env : Environment) (bindings : List Binding) :
    env.record bindings = (env.bind bindings).reverse ++ env :=
  List.foldl_flip_cons_eq_append'

theorem mem_record {env : Environment} {bindings : List Binding} {b : Binding}
    (h : b ∈ env.record bindings) : b ∈ env ∨ ∃ c ∈ bindings, b = (c.1, env.expand c.2) := by
  rw [record_eq_append, List.mem_append, List.mem_reverse] at h
  rcases h with h | h
  · obtain ⟨c, hc, rfl⟩ := List.mem_map.1 h
    exact .inr ⟨c, hc, rfl⟩
  · exact .inl h

section Forall

variable (p : Word → Bool) (hexpand : ∀ {env : Environment}, (∀ b ∈ env, p b.2 = true) →
  ∀ {w : Word}, p w = true → p (env.expand w) = true)

include hexpand

/-- What holds of words that are expanded is kept by an instruction. -/
theorem forall_record {env : Environment} (h : ∀ b ∈ env, p b.2 = true) {bindings : List Binding}
    (hbindings : ∀ b ∈ bindings, p b.2 = true) : ∀ b ∈ env.record bindings, p b.2 = true := by
  intro b hb
  rcases mem_record hb with hb | ⟨c, hc, rfl⟩
  · exact h b hb
  · exact hexpand h (hbindings c hc)

theorem forall_foldl_record {env : Environment} (h : ∀ b ∈ env, p b.2 = true) {bss : List (List Binding)}
    (hbss : ∀ bindings ∈ bss, ∀ b ∈ bindings, p b.2 = true) :
    ∀ b ∈ bss.foldl record env, p b.2 = true := by
  induction bss generalizing env with
  | nil => exact h
  | cons bindings rest ih =>
    obtain ⟨hfirst, hrest⟩ := List.forall_mem_cons.1 hbss
    exact ih (forall_record p hexpand h hfirst) hrest

end Forall

theorem Named.record {env : Environment} (h : env.Named) {bindings : List Binding}
    (hbindings : ∀ b ∈ bindings, b.2.named = true) : (env.record bindings).Named :=
  forall_record Word.named Named.expand h hbindings

/-- A word without modifiers has none either when words without modifiers are put into it. -/
theorem unmodified_expand {env : Environment} (h : ∀ b ∈ env, b.2.unmodified = true) {w : Word}
    (hw : w.unmodified = true) : (env.expand w).unmodified = true := by
  induction w with
  | nil => rfl
  | char c rest ih => exact ih hw
  | var name rest ih =>
    rw [expand]
    split
    · next value hget =>
      rw [Word.unmodified_append, h (name, value) (mem_of_get? hget), Bool.true_and]
      exact ih hw
    · exact ih hw
  | cond name choice arg rest => cases hw

/-- Whether the recorded words turn the variables `ρ` into `σ`. -/
def Holds (env : Environment) (ρ σ : Vars) : Prop :=
  ∀ name, σ.text name =
    match env.get? name with
    | some w => w.value ρ
    | none => ρ.text name

/-- Whether the modifiers of a word are decided by the recorded words: one that has an empty value is an
empty word. -/
def Decides (env : Environment) (ρ : Vars) : Word → Prop
  | .nil => True
  | .char _ rest | .var _ rest => Decides env ρ rest
  | .cond name _ arg rest =>
    (∀ w, env.get? name = some w → w.value ρ = [] → w.isEmpty = true) ∧ Decides env ρ arg ∧
      Decides env ρ rest

variable {env : Environment} {ρ σ : Vars}

theorem decides_of_unmodified {w : Word} (h : w.unmodified = true) : env.Decides ρ w := by
  induction w with
  | nil => trivial
  | char c rest ih => exact ih h
  | var name rest ih => exact ih h
  | cond name choice arg rest => cases h

theorem holds_nil (ρ : Vars) : Holds [] ρ ρ := fun _ => rfl

theorem Holds.of_get? (h : env.Holds ρ σ) {name : Text} {w : Word} (hget : env.get? name = some w) :
    σ.text name = w.value ρ := by
  rw [h name, hget]

theorem Holds.of_none (h : env.Holds ρ σ) {name : Text} (hget : env.get? name = none) :
    σ.text name = ρ.text name := by
  rw [h name, hget]

theorem Holds.set (h : env.Holds ρ σ) (name : Text) {w : Word} {t : Text} (ht : w.value ρ = t) :
    (env.set name w).Holds ρ (σ.set name t) := by
  intro other
  rw [Vars.text_set, get?_set]
  by_cases hother : other = name
  · rw [if_pos hother, if_pos hother, ← ht]
  · rw [if_neg hother, if_neg hother]
    exact h other

/-- A word that is expanded has the value, in the variables from the start, that it has by now. -/
theorem value_expand (h : env.Holds ρ σ) {w : Word} (hw : env.Decides ρ w) :
    (env.expand w).value ρ = w.value σ := by
  induction w with
  | nil => rfl
  | char c rest ih => rw [expand, Word.value, Word.value, ih hw]
  | var name rest ih =>
    unfold expand
    split
    · next w hget => rw [Word.value_append, Word.value, h.of_get? hget, ih hw]
    · next hget => rw [Word.value, Word.value, h.of_none hget, ih hw]
  | cond name choice arg rest iharg ihrest =>
    obtain ⟨hdecided, harg, hrest⟩ := hw
    -- The modifier is decided by the recorded word as it is by the value.
    have hempty : ∀ w, env.get? name = some w → (w.isEmpty = true ↔ σ.text name = []) := by
      intro w hget
      rw [h.of_get? hget]
      exact ⟨fun hw => Word.value_of_isEmpty hw ρ, hdecided w hget⟩
    unfold expand
    split
    · next w hget =>
      rw [Word.value_append, Word.value, ihrest hrest]
      split
      · next hw => rw [iharg harg, Choice.pick, if_pos ((hempty w hget).1 hw)]
      · next hw => rw [Choice.pick, if_neg fun hnil => hw ((hempty w hget).2 hnil), h.of_get? hget]
    · next w hget =>
      rw [Word.value_append, Word.value, ihrest hrest]
      split
      · next hw => rw [Choice.pick, if_pos ((hempty w hget).1 hw), Word.value]
      · next hw => rw [Choice.pick, if_neg fun hnil => hw ((hempty w hget).2 hnil), iharg harg]
    · next hget => rw [Word.value, Word.value, h.of_none hget, iharg harg, ihrest hrest]

/-- The bindings of one instruction are evaluated in the variables before it and recorded one by one. -/
theorem Holds.foldl_set (h : env.Holds ρ σ) {bindings : List Binding}
    (hdecided : ∀ b ∈ bindings, env.Decides ρ b.2) {env' : Environment} {σ' : Vars}
    (h' : env'.Holds ρ σ') :
    Holds ((env.bind bindings).foldl (fun env (name, value) => env.set name value) env') ρ
      (bindings.foldl (fun τ b => τ.set b.1 (b.2.value σ)) σ') := by
  induction bindings generalizing env' σ' with
  | nil => exact h'
  | cons b bs ih =>
    obtain ⟨hb, hbs⟩ := List.forall_mem_cons.1 hdecided
    exact ih hbs (h'.set b.1 (value_expand h hb))

/-- An instruction whose modifiers are decided keeps the recorded words true. -/
theorem Holds.record (h : env.Holds ρ σ) {bindings : List Binding}
    (hdecided : ∀ b ∈ bindings, env.Decides ρ b.2) :
    (env.record bindings).Holds ρ (σ.assign bindings) :=
  h.foldl_set hdecided h

theorem Holds.foldl_record (h : env.Holds ρ σ) {bss : List (List Binding)}
    (hbss : ∀ bindings ∈ bss, ∀ b ∈ bindings, b.2.unmodified = true) :
    Holds (bss.foldl Environment.record env) ρ (bss.foldl Vars.assign σ) := by
  induction bss generalizing env σ with
  | nil => exact h
  | cons bindings rest ih =>
    obtain ⟨hfirst, hrest⟩ := List.forall_mem_cons.1 hbss
    exact ih (h.record fun b hb => decides_of_unmodified (hfirst b hb)) hrest

/-! ## Values without references -/

/-- Whether all variables have values without references. -/
def IsLiteral (env : Environment) : Prop := ∀ name w, env.get? name = some w → ∃ t, w = .literal t

/-- The variables with the recorded values put in the place of their own. -/
def override (env : Environment) (ρ : Vars) : Vars := fun name =>
  match env.get? name with
  | some w => w.text?
  | none => ρ name

theorem IsLiteral.holds (h : env.IsLiteral) (ρ : Vars) : env.Holds ρ (env.override ρ) := by
  intro name
  cases hget : env.get? name with
  | none => simp [Vars.text, override, hget]
  | some w =>
    obtain ⟨t, rfl⟩ := h name w hget
    simp [Vars.text, override, hget]

/-- A value without references is empty only if its word is. -/
theorem IsLiteral.decides (h : env.IsLiteral) (ρ : Vars) (w : Word) : env.Decides ρ w := by
  induction w with
  | nil => trivial
  | char c rest ih => exact ih
  | var name rest ih => exact ih
  | cond name choice arg rest iharg ihrest =>
    refine ⟨fun v hget hvalue => ?_, iharg, ihrest⟩
    obtain ⟨t, rfl⟩ := h name v hget
    rw [Word.value_literal] at hvalue
    rw [hvalue]
    rfl

theorem IsLiteral.get?_of_mem_names (h : env.IsLiteral) {w : Word} {name : Text}
    (hname : name ∈ (env.expand w).names) : env.get? name = none := by
  have hvalue : ∀ {other v}, env.get? other = some v → name ∉ v.names := by
    intro other v hget
    obtain ⟨t, rfl⟩ := h other v hget
    simp
  induction w with
  | nil => cases hname
  | char c rest ih => exact ih hname
  | var other rest ih =>
    unfold expand at hname
    split at hname
    · next v hget =>
      rw [Word.names_append, List.mem_append] at hname
      exact ih (hname.resolve_left (hvalue hget))
    · next hget =>
      rcases List.mem_cons.1 hname with rfl | hname
      · exact hget
      · exact ih hname
  | cond other choice arg rest iharg ihrest =>
    unfold expand at hname
    split at hname
    · next v hget =>
      rw [Word.names_append, List.mem_append] at hname
      rcases hname with hname | hname
      · split at hname
        · exact iharg hname
        · exact absurd hname (hvalue hget)
      · exact ihrest hname
    · rw [Word.names_append, List.mem_append] at hname
      rcases hname with hname | hname
      · split at hname
        · cases hname
        · exact iharg hname
      · exact ihrest hname
    · next hget =>
      simp only [Word.names, List.cons_append, List.mem_cons, List.mem_append] at hname
      rcases hname with rfl | hname | hname
      · exact hget
      · exact iharg hname
      · exact ihrest hname

/-- A word that refers to no recorded variable is left as it is. -/
theorem expand_eq_self {w : Word} (h : ∀ name ∈ w.names, env.get? name = none) : env.expand w = w := by
  induction w with
  | nil => rfl
  | char c rest ih => rw [expand, ih h]
  | var name rest ih =>
    obtain ⟨hname, hrest⟩ := List.forall_mem_cons.1 h
    rw [expand, hname, ih hrest]
  | cond name choice arg rest iharg ihrest =>
    obtain ⟨hname, hothers⟩ := List.forall_mem_cons.1 h
    obtain ⟨harg, hrest⟩ := List.forall_mem_append.1 hothers
    rw [expand.eq_def]
    simp only [hname, iharg harg, ihrest hrest]

end Environment

/-- Where all recorded values are without references, a word that is expanded has in any variables the value
that the word itself has in these variables with the recorded values in the place of their own. It refers to
no recorded variable any more, in modifiers neither, so expanding it again changes nothing. -/
theorem State.value_expand_override {s : State} (h : s.env.IsLiteral) (w : Word) :
    (∀ ρ, (s.expand w).value ρ = w.value (s.env.override ρ)) ∧
    (∀ name ∈ (s.expand w).names, s.env.get? name = none) ∧ s.expand (s.expand w) = s.expand w := by
  have hnames : ∀ name ∈ (s.expand w).names, s.env.get? name = none := fun _ => h.get?_of_mem_names
  refine ⟨fun ρ => ?_, hnames, Environment.expand_eq_self hnames⟩
  exact Environment.value_expand (h.holds ρ) (h.decides ρ w)

/-- An empty value and one with blanks, in modifiers of each other and of a variable that is not recorded. -/
theorem State.value_expand_override_nested :
    let env : Environment := [("E".toList, .nil), ("V".toList, .literal "a b".toList)]
    let s : State := { State.initial '\\' with env := env }
    let w := Word.lex '\\' "$\x7bE:-$\x7bV:+$U\x7d\x7d/$\x7bU:-x$V$E\x7d/$\x7bE:+$U\x7d".toList
    let expanded := Word.lex '\\' "$U/$\x7bU:-xa\\ b\x7d/".toList
    env.IsLiteral ∧ s.expand w = expanded ∧ (∀ ρ, expanded.value ρ = w.value (env.override ρ)) ∧
      s.expand expanded = expanded := by
  intro env s w expanded
  have henv : env.IsLiteral := by
    intro name v hget
    rcases List.mem_cons.1 (Environment.mem_of_get? hget) with heq | hmem
    · exact ⟨[], congrArg Prod.snd heq⟩
    · exact ⟨"a b".toList, congrArg Prod.snd (List.mem_singleton.1 hmem)⟩
  have hexpand : s.expand w = expanded := by decide +kernel
  obtain ⟨hvalue, -, hagain⟩ := State.value_expand_override (s := s) henv w
  rw [hexpand] at hvalue hagain
  exact ⟨henv, hexpand, hvalue, hagain⟩

end BuildScript
