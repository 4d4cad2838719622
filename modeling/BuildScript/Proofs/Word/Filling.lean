import Mathlib.Data.List.Forall2
import BuildScript.Compile.State
import BuildScript.Proofs.Word.Ends
import BuildScript.Proofs.Word.Reread

/-!
# Values in place of references

A reference to a recorded variable may be written out as the text that was recorded. The word that is read then
is another one (`Word.Fills`), but it is expanded to the same word (`Environment.expand_eq_of_fills`). Before it
is expanded, it can only be taken for more than the word with the reference: what it ends in, it ends in still
(`Word.Fills.endsWith`), and the empty word has nothing to fill (`Word.Fills.isEmpty`).
-/

namespace BuildScript

namespace Word

/-- Whether a word is another one with the text `value` in place of some references to `name`. The word of a
modifier may be filled like that, too. -/
inductive Fills (name value : Text) : Word → Word → Prop
  | nil : Fills name value .nil .nil
  | char (c : Char) {v w : Word} (h : Fills name value v w) : Fills name value (.char c v) (.char c w)
  | var (other : Text) {v w : Word} (h : Fills name value v w) :
    Fills name value (.var other v) (.var other w)
  | cond (other : Text) (choice : Choice) {a b v w : Word} (harg : Fills name value a b)
    (h : Fills name value v w) : Fills name value (.cond other choice a v) (.cond other choice b w)
  | fill {v w : Word} (h : Fills name value v w) : Fills name value (.var name v) (literal value ++ w)

namespace Fills

variable {name value : Text} {a b v w : Word}

theorem refl (w : Word) : Fills name value w w := by
  induction w with
  | nil => exact .nil
  | char c rest ih => exact .char c ih
  | var other rest ih => exact .var other ih
  | cond other choice arg rest iharg ih => exact .cond other choice iharg ih

theorem append (ha : Fills name value a b) (h : Fills name value v w) :
    Fills name value (a ++ v) (b ++ w) := by
  induction ha with
  | nil => exact h
  | char c _ ih => exact .char c ih
  | var other _ ih => exact .var other ih
  | cond other choice harg _ _ ih => exact .cond other choice harg ih
  | fill _ ih =>
    rw [append_assoc]
    exact .fill ih

theorem join (sep : Text) {vs ws : List Word} (h : List.Forall₂ (Fills name value) vs ws) :
    Fills name value (Word.join sep vs) (Word.join sep ws) := by
  induction h with
  | nil => exact .nil
  | cons hfirst hrest ih =>
    cases hrest with
    | nil => exact hfirst
    | cons => exact (hfirst.append (refl (literal sep))).append ih

/-- The empty word has nothing to fill. -/
theorem isEmpty (h : Fills name value v w) (hv : v.isEmpty = true) : w.isEmpty = true := by
  cases h with
  | nil => rfl
  | _ => cases hv

theorem trailingFrom_suffix {seen before : Text} (h : Fills name value v w) (hseen : seen <+: before) :
    trailingFrom seen v <:+ trailingFrom before w := by
  induction h generalizing seen before with
  | nil => exact List.reverse_suffix.2 hseen
  | char c _ ih => exact ih ((List.prefix_cons_inj c).2 hseen)
  | var other _ ih => exact ih (List.prefix_refl [])
  | cond other choice _ _ _ ih => exact ih (List.prefix_refl [])
  | fill _ ih =>
    rw [trailingFrom_literal_append]
    exact ih (List.nil_prefix)

/-- A word that is filled keeps its end. -/
theorem endsWith (h : Fills name value v w) {ending : Text} (hv : v.endsWith ending = true) :
    w.endsWith ending = true := by
  have hsuffix : v.trailing <:+ w.trailing := h.trailingFrom_suffix (List.prefix_refl [])
  simp only [Word.endsWith, Bool.and_eq_true, List.isSuffixOf_iff_suffix, Bool.not_eq_true',
    List.isEmpty_eq_false_iff] at hv ⊢
  refine ⟨fun hnil => hv.1 ?_, hv.2.trans hsuffix⟩
  rw [hnil] at hsuffix
  exact List.suffix_nil.1 hsuffix

/-- A word without references has nothing to fill. -/
theorem eq_of_text? (h : Fills name value v w) {t : Text} (ht : v.text? = some t) : w = v := by
  induction h generalizing t with
  | nil => rfl
  | char c _ ih =>
    obtain ⟨u, hu, -⟩ := Option.map_eq_some_iff.1 ht
    rw [ih hu]
  | var | cond | fill => cases ht

end Fills

end Word

open Word (Fills)

variable {name value : Text}

/-- What is written as a directory is so still when it is filled. -/
theorem State.namesDirectory_of_fills {v w : Word} (h : Fills name value v w)
    (hv : State.namesDirectory v = true) : State.namesDirectory w = true := by
  have hliteral : ∀ t, v = .literal t → w = .literal t := by
    rintro t rfl
    exact h.eq_of_text? (Word.text?_literal t)
  simp only [State.namesDirectory, Bool.or_eq_true, beq_iff_eq] at hv ⊢
  rcases hv with (((hv | hv) | hv) | hv) | hv
  · exact .inl (.inl (.inl (.inl (h.endsWith hv))))
  · exact .inl (.inl (.inl (.inr (hliteral _ hv))))
  · exact .inl (.inl (.inr (hliteral _ hv)))
  · exact .inl (.inr (h.endsWith hv))
  · exact .inr (h.endsWith hv)

namespace Environment

variable {env : Environment}

theorem expand_literal_append (t : Text) (w : Word) :
    env.expand (.literal t ++ w) = .literal t ++ env.expand w := by
  induction t with
  | nil => rfl
  | cons c rest ih => rw [Word.literal, Word.char_append, expand, ih, Word.char_append]

/-- A word that is filled with the text that is recorded is expanded to the same word. -/
theorem expand_eq_of_fills (hvalue : env.get? name = some (.literal value)) {v w : Word}
    (h : Fills name value v w) : env.expand w = env.expand v := by
  induction h with
  | nil => rfl
  | char c _ ih => rw [expand, expand, ih]
  | var other _ ih => simp only [expand, ih]
  | cond other choice _ _ iharg ih => simp only [expand, iharg, ih]
  | fill _ ih =>
    rw [expand_literal_append, ih, expand, hvalue]

end Environment

/-! ## Texts -/

namespace Word

variable {escape : Char}

/-- Words that are read of a text and the words that they are when they are filled. -/
structure FillsAll (name value : Text) (words filled : Option Word × List Word) : Prop where
  first : List.Forall₂ (Fills name value) words.1.toList filled.1.toList
  others : List.Forall₂ (Fills name value) words.2 filled.2

namespace FillsAll

variable {words filled : Option Word × List Word} {v w : Word}

theorem refl (words : Option Word × List Word) : FillsAll name value words words :=
  ⟨List.forall₂_same.2 fun w _ => Fills.refl w, List.forall₂_same.2 fun w _ => Fills.refl w⟩

theorem adjoin (hpiece : Fills name value v w) (h : FillsAll name value words filled) :
    FillsAll name value (Mark.adjoin v words) (Mark.adjoin w filled) := by
  refine ⟨?_, h.others⟩
  have hfirst : Fills name value (words.1.getD .nil) (filled.1.getD .nil) := by
    have hlists := h.first
    cases hwords : words.1 with
    | none =>
      rw [hwords] at hlists
      cases hfilled : filled.1 with
      | none => exact .nil
      | some u => rw [hfilled] at hlists; cases hlists
    | some u =>
      rw [hwords] at hlists
      cases hfilled : filled.1 with
      | none => rw [hfilled] at hlists; cases hlists
      | some u' =>
        rw [hfilled] at hlists
        cases hlists with
        | cons hfirst => exact hfirst
  exact .cons (hpiece.append hfirst) .nil

theorem toList_append (h : FillsAll name value words filled) :
    List.Forall₂ (Fills name value) (words.1.toList ++ words.2) (filled.1.toList ++ filled.2) :=
  List.rel_append h.first h.others

/-- What is read before a place where two texts differ is the same in both. -/
theorem collect_append {ks ks' : List Mark} (h : FillsAll name value (Mark.collect ks) (Mark.collect ks'))
    (ms : List Mark) : FillsAll name value (Mark.collect (ms ++ ks)) (Mark.collect (ms ++ ks')) := by
  induction ms with
  | nil => exact h
  | cons m ms ih =>
    cases m with
    | part w => exact ih.adjoin (Fills.refl w)
    | blank => exact ⟨.nil, ih.toList_append⟩

end FillsAll

/-- Characters without a meaning and blanks are read one by one, whatever follows. -/
theorem scan_bare (hescape : Shell.isPlain escape = false) {before : Text}
    (hbefore : before.all (fun c => isBlank c || Shell.isPlain c) = true) (t : Text) :
    scan isBlank escape false (before ++ t) =
      before.map (fun c => if isBlank c then .blank else .part (.char c .nil)) ++ scan isBlank escape false t := by
  induction before with
  | nil => rfl
  | cons c rest ih =>
    rw [List.all_cons, Bool.and_eq_true, Bool.or_eq_true] at hbefore
    obtain ⟨hc, hrest⟩ := hbefore
    rw [List.map_cons, List.cons_append, List.cons_append, ← ih hrest, scan.eq_def]
    dsimp only
    by_cases hblank : isBlank c = true
    · rw [if_pos (by simpa using hblank), if_pos hblank]
    · have hother : ∀ d, Shell.isPlain d = false → c ≠ d := by
        rintro d hd rfl
        rw [hc.resolve_left hblank] at hd
        cases hd
      rw [if_neg (by simpa using hblank), if_neg fun h => hother '\'' (by decide) h.1,
        if_neg (hother '"' (by decide)), if_neg (hother escape hescape), if_neg (hother '$' (by decide)),
        if_neg hblank]

/-- The words of a text in which a reference is written out as the quoted text of its value, if what stands before
it is read in the same way whatever follows. -/
theorem fills_lexAll (hescape : escape = '\\' ∨ escape = '\x60') (hname : isName name = true) {before : Text}
    {ms : List Mark}
    (hbefore : ∀ t, scan isBlank escape false (before ++ t) = ms ++ scan isBlank escape false t) (after : Text) :
    List.Forall₂ (Fills name value) (lexAll escape (before ++ (Shell.reference name [] ++ after)))
      (lexAll escape (before ++ (Shell.quote value ++ after))) := by
  have hdollar : escape ≠ '$' := by rcases hescape with rfl | rfl <;> decide
  have hpiece : Fills name value (.var name .nil) (literal value) := by
    have hfill := Fills.fill (.nil : Fills name value .nil .nil)
    rwa [append_nil] at hfill
  have hwords : FillsAll name value (wordsFrom escape false (Shell.reference name [] ++ after))
      (wordsFrom escape false (Shell.quote value ++ after)) := by
    rw [wordsFrom_reference hdollar hname, wordsFrom_quote hescape]
    exact (FillsAll.refl _).adjoin hpiece
  rw [lexAll_eq, lexAll_eq, wordsFrom, wordsFrom, hbefore, hbefore]
  exact (hwords.collect_append ms).toList_append

/-- The same, behind characters without a meaning and blanks. -/
theorem fills_of_bare (hescape : escape = '\\' ∨ escape = '\x60') (hname : isName name = true) {before : Text}
    (hbefore : before.all (fun c => isBlank c || Shell.isPlain c) = true) (after : Text) {vs ws : List Word}
    (hvs : vs = lexAll escape (before ++ (Shell.reference name [] ++ after)))
    (hws : ws = lexAll escape (before ++ (Shell.quote value ++ after))) :
    List.Forall₂ (Fills name value) vs ws := by
  have hplain : Shell.isPlain escape = false := by rcases hescape with rfl | rfl <;> decide
  rw [hvs, hws]
  exact fills_lexAll hescape hname (scan_bare hplain hbefore) after

end Word

end BuildScript
