import BuildScript.Proofs.Posix.Fields

/-!
# Modifiers between double quotes

What a shell makes of a reference with a modifier. The word of the modifier is escaped as text between
double quotes, where a closing brace is a character like others; but it stands in braces, and there it is
not. So the reference means what it should exactly if no character of the word is a closing brace
(`fieldsOf?_modifier_iff`). One that is ends the reference, and what follows it is read as text behind the
reference, whatever the variable is.
-/

namespace BuildScript

namespace Posix

/-- A closing brace that stands for itself is in the text that marks become. -/
theorem brace_mem_textOf? {m : Machine} {ρ : Vars} {ms : List Mark} {t : Text}
    (h : textOf? m ρ ms = some t) (hbrace : 0 < ms.countP Nest.isBrace) : '}' ∈ t := by
  obtain ⟨k, hk, hkbrace⟩ := List.countP_pos_iff.1 hbrace
  obtain ⟨before, after, rfl⟩ := List.append_of_mem hk
  obtain ⟨as, has, rfl⟩ := Option.map_eq_some_iff.1 h
  cases k with
  | char quoted c =>
    have hc : c = '}' := by simpa [Nest.isBrace] using hkbrace
    rw [atoms?_append, Option.bind_eq_some_iff] at has
    obtain ⟨first, -, hrest⟩ := has
    obtain ⟨others, hothers, rfl⟩ := Option.map_eq_some_iff.1 hrest
    simp only [atoms?, Option.bind_eq_bind, Option.bind_eq_some_iff] at hothers
    obtain ⟨atom, hatom, rest, -, heq⟩ := hothers
    cases heq
    have htext : '}' ∈ atom.flatMap Atom.text := by
      cases quoted <;> cases hatom <;> simp [Atom.text, hc]
    simp only [List.flatMap_append, List.mem_append]
    exact Or.inr (Or.inl htext)
  | _ => cases hkbrace

/-- The variables for which a modifier does not apply. -/
def idle (choice : Choice) : Vars :=
  match choice with
  | .default => fun _ => some ['x']
  | .alternate => fun _ => none

theorem brace_notMem_pick_idle (choice : Choice) (name arg : Text) :
    '}' ∉ choice.pick ((idle choice).text name) arg := by
  cases choice with
  | default => simp [idle, Vars.text, Choice.pick]
  | alternate => simp [idle, Vars.text, Choice.pick]

theorem fieldsOf?_doubleQuoted {w : Word} (hw : w.named = true) (m : Machine) (ρ : Vars) :
    ∃ ms t, (Nest.quotes []).put w = .quotes ms ∧ textOf? m ρ (.quotes :: ms) = some t ∧
      fieldsOf? m ρ ('"' :: w.toDoubleQuoted ++ ['"']) = some [t] := by
  obtain ⟨ms, hput, hrun⟩ := Reader.run_doubleQuoted Reader.isBare_start hw
  have hreads := reads_put noChar hw hput
  have hsolid : (Mark.quotes :: ms).any Mark.isSolid = true := rfl
  have hfields := fields?_of_inert (m := m) (ρ := ρ) hreads.inert hsolid
  obtain ⟨t, htext⟩ := exists_textOf?_of_inert (m := m) (ρ := ρ) hreads.inert
  refine ⟨ms, t, hput, htext, ?_⟩
  rw [htext] at hfields
  have hword := isWord_of_inert hreads.inert hsolid
  rw [fieldsOf?, read_of_run hrun, tokens_word hword, Option.bind_eq_bind, Option.bind_some]
  simp [words?, allFields?, hfields]

/-- A reference with a modifier, between double quotes, has the value that the modifier picks for all
values of the variables exactly if no character of its word closes a brace. -/
theorem fieldsOf?_cond_iff {name : Text} (hname : isName name = true) {d : Word} (hd : d.named = true)
    (choice : Choice) :
    (∀ (m : Machine) (ρ : Vars), fieldsOf? m ρ ('"' :: (Word.cond name choice d .nil).toDoubleQuoted ++
        ['"']) = some [choice.pick (ρ.text name) (d.value ρ)]) ↔ d.braceFree = true := by
  have hw : (Word.cond name choice d .nil).named = true := by
    simpa [Word.named, Word.names, hname] using hd
  constructor
  · intro h
    by_contra hbrace
    obtain ⟨ms, t, hput, htext, hfields⟩ := fieldsOf?_doubleQuoted hw (.bare []) (idle choice)
    -- As many braces are left over between the quotes as the word has.
    have hcount := Nest.depth_put (Word.cond name choice d .nil) (.quotes [])
    rw [hput] at hcount
    have hpos : d.braces ≠ 0 := fun hzero => hbrace (Word.braces_eq_zero.1 hzero)
    have hground : 0 < (Mark.quotes :: ms).countP Nest.isBrace := by
      simp only [Nest.depth, Nest.groundBraces, Nest.ground, Word.braces, List.countP_nil] at hcount
      simp only [List.countP_cons, Nest.isBrace]
      omega
    have hvalue := h (.bare []) (idle choice)
    rw [hfields, Option.some.injEq, List.cons.injEq] at hvalue
    apply brace_notMem_pick_idle choice name (d.value (idle choice))
    rw [← hvalue.1]
    exact brace_mem_textOf? htext hground
  · intro hfree m ρ
    obtain ⟨ms, t, hput, htext, hfields⟩ := fieldsOf?_doubleQuoted hw m ρ
    have hclosed : (Word.cond name choice d .nil).closed = true := by simp [Word.closed, hfree]
    have hvalue := (reads_put noChar hw hput).value hclosed m ρ
    rw [htext] at hvalue
    rw [hfields, Option.some.inj hvalue]
    simp [Word.value]

/-- A default takes the place of a value that is missing or empty and an alternate that of one that is
not, for all values of the variables, exactly if no character of the word, however deep inside it, closes
a brace. -/
theorem fieldsOf?_modifier_iff {name : Text} (hname : isName name = true) {d : Word}
    (hd : d.named = true) :
    ((∀ (m : Machine) (ρ : Vars),
        fieldsOf? m ρ ('"' :: Shell.reference name (':' :: '-' :: d.toDoubleQuoted) ++ ['"']) =
          some [if ρ.text name = [] then d.value ρ else ρ.text name]) ↔ d.braceFree = true) ∧
      ((∀ (m : Machine) (ρ : Vars),
        fieldsOf? m ρ ('"' :: Shell.reference name (':' :: '+' :: d.toDoubleQuoted) ++ ['"']) =
          some [if ρ.text name = [] then [] else d.value ρ]) ↔ d.braceFree = true) := by
  have htext : ∀ choice : Choice, (Word.cond name choice d .nil).toDoubleQuoted =
      Shell.reference name (choice.operator ++ d.toDoubleQuoted) := by
    intro choice
    simp [Word.toDoubleQuoted]
  have hdefault := fieldsOf?_cond_iff hname hd .default
  have halternate := fieldsOf?_cond_iff hname hd .alternate
  rw [htext] at hdefault halternate
  exact ⟨hdefault, halternate⟩

/-- A default with quotes and a blank in it and a default of its own, which is taken when both variables
are empty. -/
theorem fieldsOf?_modifier_nested :
    fieldsOf? (.bare []) (fun _ => some []) ('"' :: Shell.reference "A".toList (':' :: '-' ::
        ((Word.literal "it's ".toList).append
          (.cond "B".toList .default (.literal "$c".toList) .nil)).toDoubleQuoted) ++ ['"']) =
      some ["it's $c".toList] := by
  have hname : isName "A".toList = true := rfl
  exact (fieldsOf?_modifier_iff hname rfl).1.2 rfl (.bare []) fun _ => some []

/-- A brace in the default ends the reference: what follows it is left over behind the value. -/
theorem fieldsOf?_modifier_brace :
    ¬ ∀ (d : Word) (ρ : Vars), d.named = true →
      fieldsOf? (.bare []) ρ
          ('"' :: Shell.reference "A".toList (':' :: '-' :: d.toDoubleQuoted) ++ ['"']) =
        some [if ρ.text "A".toList = [] then d.value ρ else ρ.text "A".toList] := by
  intro h
  have hfields := h (.literal "x\x7dy".toList) (fun _ => some "v".toList) rfl
  have hleft : fieldsOf? (.bare []) (fun _ => some "v".toList) ('"' :: Shell.reference "A".toList
      (':' :: '-' :: (Word.literal "x\x7dy".toList).toDoubleQuoted) ++ ['"']) =
      some ["vy\x7d".toList] := rfl
  rw [hleft] at hfields
  cases hfields

end Posix

end BuildScript
