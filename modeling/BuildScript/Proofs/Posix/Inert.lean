import BuildScript.Proofs.Posix.Nesting

/-!
# Marks without a meaning to the shell

A mark is inert if a shell does nothing with it but to put a text in its place: a character that is quoted
or has no meaning, or the value of a parameter between double quotes. A word of inert marks becomes one
field, whatever the values are (`fields?_of_inert`). Some characters may be left live, as the pattern
characters of a file name; then the word is still one word.
-/

namespace BuildScript.Posix

/-- A mark that the shell replaces by one text. The characters of `live` may stand in it unquoted. -/
inductive Mark.Inert (live : Char → Bool) : Mark → Prop
  | quoted (c : Char) : Inert live (.char true c)
  | bare (c : Char) (h : Shell.isPlain c = true ∨ live c = true) : Inert live (.char false c)
  | quotes : Inert live .quotes
  | param (name : Text) (h : isName name = true) : Inert live (.param true name [] [])
  | choice (name : Text) (h : isName name = true) (choice : Choice) (arg : List Mark)
      (harg : ∀ m ∈ arg, Inert live m) : Inert live (.param true name choice.operator arg)

/-- No character at all. -/
def noChar (_ : Char) : Bool := false

/-- A mark that makes a word even if nothing else is in it. -/
def Mark.isSolid : Mark → Bool
  | .char _ _ | .quotes => true
  | _ => false

mutual

/-- The names of the parameters in a mark, from left to right. -/
def Mark.references : Mark → List Text
  | .param _ name _ arg => name :: references arg
  | .command _ body => references body
  | _ => []

/-- The names of the parameters in marks, from left to right. -/
def references : List Mark → List Text
  | [] => []
  | m :: ms => m.references ++ references ms

end

theorem references_append (ms ns : List Mark) :
    references (ms ++ ns) = references ms ++ references ns := by
  induction ms with
  | nil => rfl
  | cons m ms ih => simp [references, ih]

theorem references_map_char (quoted : Bool) (t : Text) :
    references (t.map (.char quoted)) = [] := by
  induction t with
  | nil => rfl
  | cons c rest ih => simp [references, Mark.references, ih]

section

variable (m : Machine) (ρ : Vars)

/-- The text that marks become if nothing is split or matched. -/
def textOf? (ms : List Mark) : Option Text :=
  (atoms? m ρ ms).map fun atoms => atoms.flatMap Atom.text

theorem atoms?_append (ms ns : List Mark) :
    atoms? m ρ (ms ++ ns) =
      (atoms? m ρ ms).bind fun first => (atoms? m ρ ns).map (first ++ ·) := by
  induction ms with
  | nil => simp [atoms?]
  | cons k ms ih =>
    cases hk : k.atoms? m ρ with
    | none => simp [atoms?, hk]
    | some first =>
      cases hms : atoms? m ρ ms with
      | none => simp [atoms?, hk, ih, hms]
      | some others => cases hns : atoms? m ρ ns <;> simp [atoms?, hk, ih, hms, hns]

theorem textOf?_append {ms ns : List Mark} {s t : Text} (hms : textOf? m ρ ms = some s)
    (hns : textOf? m ρ ns = some t) : textOf? m ρ (ms ++ ns) = some (s ++ t) := by
  obtain ⟨as, has, rfl⟩ := Option.map_eq_some_iff.1 hms
  obtain ⟨bs, hbs, rfl⟩ := Option.map_eq_some_iff.1 hns
  simp [textOf?, atoms?_append, has, hbs]

theorem textOf?_map_char (quoted : Bool) (t : Text) :
    textOf? m ρ (t.map (.char quoted)) = some t := by
  induction t with
  | nil => rfl
  | cons c rest ih =>
    have hc : textOf? m ρ [.char quoted c] = some [c] := by cases quoted <;> rfl
    exact textOf?_append m ρ hc ih

end

/-! ## Inert marks expand to one field -/

/-- An atom that is neither split nor, but for the characters of `live`, matched against files. -/
def Atom.Settled (live : Char → Bool) : Atom → Prop
  | .bare c => Shell.isPlain c = true ∨ live c = true
  | .result _ => False
  | _ => True

theorem Atom.settled_ofValue (live : Char → Bool) (value : Text) :
    ∀ a ∈ Atom.ofValue true value, a.Settled live := by
  intro a ha
  obtain ⟨c, -, rfl⟩ := List.mem_map.1 ha
  trivial

section

variable {m : Machine} {ρ : Vars} {live : Char → Bool}

theorem exists_atoms? {ms : List Mark} {P : Atom → Prop}
    (h : ∀ k ∈ ms, ∃ as, k.atoms? m ρ = some as ∧ ∀ a ∈ as, P a) :
    ∃ as, atoms? m ρ ms = some as ∧ ∀ a ∈ as, P a := by
  induction ms with
  | nil => exact ⟨[], rfl, by simp⟩
  | cons k ms ih =>
    obtain ⟨first, hfirst, hP⟩ := h k List.mem_cons_self
    obtain ⟨others, hothers, hPs⟩ := ih fun j hj => h j (List.mem_cons_of_mem _ hj)
    refine ⟨first ++ others, by simp [atoms?, hfirst, hothers], ?_⟩
    intro a ha
    exact (List.mem_append.1 ha).elim (hP a) (hPs a)

theorem Mark.Inert.exists_atoms? {k : Mark} (h : k.Inert live) :
    ∃ as, k.atoms? m ρ = some as ∧ ∀ a ∈ as, a.Settled live := by
  induction h with
  | quoted c => exact ⟨[.quoted c], rfl, by simp [Atom.Settled]⟩
  | bare c hc => exact ⟨[.bare c], rfl, by simpa [Atom.Settled] using hc⟩
  | quotes => exact ⟨[.none], rfl, by simp [Atom.Settled]⟩
  | param name hname => exact ⟨_, rfl, Atom.settled_ofValue live _⟩
  | choice name hname choice arg harg ih =>
    obtain ⟨as, has, hsettled⟩ := Posix.exists_atoms? ih
    cases choice with
    | default =>
      by_cases hown : ρ.text name = []
      · exact ⟨as, by simp [Mark.atoms?, Choice.operator, hown, has], hsettled⟩
      · exact ⟨Atom.ofValue true (ρ.text name), by simp [Mark.atoms?, Choice.operator, hown],
          Atom.settled_ofValue live _⟩
    | alternate =>
      by_cases hown : ρ.text name = []
      · exact ⟨[], by simp [Mark.atoms?, Choice.operator, hown], by simp⟩
      · exact ⟨as, by simp [Mark.atoms?, Choice.operator, hown, has], hsettled⟩

theorem exists_atoms?_of_inert {ms : List Mark} (h : ∀ k ∈ ms, k.Inert live) :
    ∃ as, atoms? m ρ ms = some as ∧ ∀ a ∈ as, a.Settled live :=
  exists_atoms? fun k hk => (h k hk).exists_atoms?

theorem exists_textOf?_of_inert {ms : List Mark} (h : ∀ k ∈ ms, k.Inert live) :
    ∃ t, textOf? m ρ ms = some t := by
  obtain ⟨as, has, -⟩ := exists_atoms?_of_inert (m := m) (ρ := ρ) h
  exact ⟨as.flatMap Atom.text, by rw [textOf?, has]; rfl⟩

/-- A solid mark leaves an atom, so its word is not lost when its values are empty. -/
theorem atoms?_ne_nil {ms : List Mark} (hsolid : ms.any Mark.isSolid = true) {as : List Atom}
    (h : atoms? m ρ ms = some as) : as ≠ [] := by
  induction ms generalizing as with
  | nil => cases hsolid
  | cons k ms ih =>
    simp only [atoms?, Option.bind_eq_bind, Option.bind_eq_some_iff] at h
    obtain ⟨first, hfirst, others, hothers, heq⟩ := h
    cases heq
    rw [List.any_cons, Bool.or_eq_true] at hsolid
    rcases hsolid with hk | hms
    · have hne : first ≠ [] := by
        rintro rfl
        cases k with
        | char quoted c => cases quoted <;> cases hfirst
        | quotes => cases hfirst
        | _ => cases hk
      simp [hne]
    · simp [ih hms hothers]

theorem expandTilde_of_inert {ms : List Mark} (hlive : live '~' = false) (h : ∀ k ∈ ms, k.Inert live) :
    expandTilde m ms = ms := by
  cases ms with
  | nil => rfl
  | cons k rest =>
    have hk := h k List.mem_cons_self
    cases hk with
    | bare c hc =>
      have hne : c ≠ '~' := by
        rintro rfl
        have hplain : Shell.isPlain '~' = false := by decide
        simp [hplain, hlive] at hc
      unfold expandTilde
      split
      · next heq => cases heq; exact absurd rfl hne
      · rfl
    | _ => rfl

theorem splitFields_of_settled {separators : Text} {as : List Atom}
    (h : ∀ a ∈ as, a.Settled live) (hne : as ≠ []) :
    splitFields separators as = (some as, []) := by
  induction as with
  | nil => exact absurd rfl hne
  | cons a rest ih =>
    have hcut : Cut.ofAtom separators a = .keep := by
      have := h a List.mem_cons_self
      cases a with
      | result c => exact this.elim
      | _ => rfl
    by_cases hrest : rest = []
    · simp [splitFields, hcut, hrest]
    · have hsplit := ih (fun b hb => h b (List.mem_cons_of_mem _ hb)) hrest
      simp [splitFields, hcut, hsplit]

theorem isGlob_of_isPlain {c : Char} (h : Shell.isPlain c = true) : Shell.isGlob c = false := by
  rw [Bool.eq_false_iff]
  intro hglob
  simp only [Shell.isGlob, Bool.or_eq_true, beq_iff_eq] at hglob
  rcases hglob with ((rfl | rfl) | rfl) | rfl <;> exact absurd h (by decide)

theorem pathnames_of_settled {as : List Atom} (h : ∀ a ∈ as, a.Settled noChar) :
    pathnames m as = [as.flatMap Atom.text] := by
  have hlive : as.any Atom.isLive = false := by
    rw [List.any_eq_false]
    intro a ha
    have hsettled := h a ha
    cases a with
    | bare c =>
      have hplain : Shell.isPlain c = true := hsettled.resolve_right (by simp [noChar])
      simp [Atom.isLive, isGlob_of_isPlain hplain]
    | result c => exact hsettled.elim
    | _ => simp [Atom.isLive]
  simp [pathnames, hlive]

/-- A word of inert marks becomes one field, which is its text: it is not split, dropped or matched
against files. -/
theorem fields?_of_inert {ms : List Mark} (h : ∀ k ∈ ms, k.Inert noChar)
    (hsolid : ms.any Mark.isSolid = true) :
    fields? m ρ ms = (textOf? m ρ ms).map fun t => [t] := by
  obtain ⟨as, has, hsettled⟩ := exists_atoms?_of_inert (m := m) (ρ := ρ) h
  have hsplit : splitFields (separators ρ) as = (some as, []) :=
    splitFields_of_settled hsettled (atoms?_ne_nil hsolid has)
  simp [fields?, expandTilde_of_inert rfl h, has, hsplit, pathnames_of_settled hsettled, textOf?]

end

end BuildScript.Posix
