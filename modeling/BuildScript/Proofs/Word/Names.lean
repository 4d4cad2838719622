import BuildScript.Proofs.Word.Cuts
import BuildScript.Proofs.Word.Value
import BuildScript.Compile.Variables
import BuildScript.Compile.Place

/-!
# The names that words refer to

Whatever a build file says, the words that are read from it refer to variables by names of the shell
(`named_lexAll`, `named_lex`): what is written like a reference to something else is literal text. So do
the words that compiling makes of them, as long as the recorded ones do (`Environment.Named`).
-/

namespace BuildScript

namespace Reference

/-- Whether a reference is to a variable that has a name, if it is to one. -/
def IsNamed : Reference → Prop
  | .var name | .cond name _ _ => isName name = true
  | .literal _ => True

theorem isNamed_ofBraced (inner : Text) : (ofBraced inner).IsNamed := by
  unfold ofBraced
  split
  · split
    · assumption
    · trivial
  · split
    · assumption
    · trivial
  · trivial
  · split
    · assumption
    · trivial

/-! A text begins with a brace that is closed in it, with a name, or with nothing that a dollar sign introduces. -/

theorem read_of_closeBrace {t inner after : Text} (h : closeBrace 0 t = some (inner, after)) :
    read ('{' :: t) = (ofBraced inner, after) := by
  rw [read, if_pos rfl, h]

theorem read_of_isNameStart {c : Char} (h : isNameStart c = true) (t : Text) :
    read (c :: t) = (.var (c :: t.takeWhile isNameChar), t.dropWhile isNameChar) := by
  have hbrace : c ≠ '{' := by
    rintro rfl
    cases h
  rw [read, if_neg hbrace, if_pos h]

theorem read_of_ne {c : Char} (hbrace : c ≠ '{') (hname : isNameStart c = false) (t : Text) :
    read (c :: t) = (.literal ['$'], c :: t) := by
  rw [read, if_neg hbrace, hname, if_neg Bool.false_ne_true]

theorem read_cases (t : Text) :
    (∃ u inner after, t = '{' :: u ∧ closeBrace 0 u = some (inner, after) ∧ read t = (ofBraced inner, after)) ∨
      (∃ c u, t = c :: u ∧ isNameStart c = true ∧
        read t = (.var (c :: u.takeWhile isNameChar), u.dropWhile isNameChar)) ∨
      read t = (.literal ['$'], t) := by
  cases t with
  | nil => exact .inr (.inr rfl)
  | cons c u =>
    by_cases hbrace : c = '{'
    · subst hbrace
      cases hclose : closeBrace 0 u with
      | some cut => exact .inl ⟨u, cut.1, cut.2, rfl, hclose, read_of_closeBrace hclose⟩
      | none =>
        refine .inr (.inr ?_)
        rw [read, if_pos rfl, hclose]
    · cases hname : isNameStart c with
      | true => exact .inr (.inl ⟨c, u, rfl, hname, read_of_isNameStart hname u⟩)
      | false => exact .inr (.inr (read_of_ne hbrace hname u))

theorem isNamed_read (t : Text) : (read t).1.IsNamed := by
  rcases read_cases t with ⟨u, inner, after, -, -, hread⟩ | ⟨c, u, -, hstart, hread⟩ | hread
  · rw [hread]
    exact isNamed_ofBraced inner
  · rw [hread]
    show isName (c :: u.takeWhile isNameChar) = true
    rw [isName, hstart, Bool.true_and, List.all_eq_true]
    exact fun d hd => List.all_eq_true.1 List.all_takeWhile d hd
  · rw [hread]
    trivial

end Reference

namespace Word

/-! ## Words of scanned text

What holds of the pieces of a scanned text, of no text, and of two words put together, holds of the words that
are made of the pieces. -/

section

variable {P : Word → Prop} (hnil : P .nil) (happend : ∀ v w, P v → P w → P (v ++ w))

include hnil happend

theorem Mark.of_concat {ms : List Mark} (h : ∀ w, .part w ∈ ms → P w) : P (Mark.concat ms) := by
  induction ms with
  | nil => exact hnil
  | cons m ms ih =>
    have hms := ih fun w hw => h w (List.mem_cons_of_mem _ hw)
    cases m with
    | part w => exact happend w _ (h w List.mem_cons_self) hms
    | blank => exact hms

theorem Mark.of_mem_collect {ms : List Mark} (h : ∀ w, .part w ∈ ms → P w) :
    (∀ w ∈ (Mark.collect ms).1, P w) ∧ ∀ w ∈ (Mark.collect ms).2, P w := by
  induction ms with
  | nil => exact ⟨by simp [Mark.collect], by simp [Mark.collect]⟩
  | cons m ms ih =>
    obtain ⟨hfirst, hothers⟩ := ih fun w hw => h w (List.mem_cons_of_mem _ hw)
    cases m with
    | part v =>
      refine ⟨?_, hothers⟩
      intro w hw
      obtain rfl := Option.some.inj hw
      apply happend v _ (h v List.mem_cons_self)
      cases hc : (Mark.collect ms).1 with
      | none => exact hnil
      | some u => exact hfirst u hc
    | blank =>
      refine ⟨by simp [Mark.collect], ?_⟩
      intro w hw
      rcases List.mem_append.1 hw with hw | hw
      · exact hfirst w (by simpa using hw)
      · exact hothers w hw

theorem of_mem_lexAll {escape : Char} {t : Text} (h : ∀ w, .part w ∈ scan isBlank escape false t → P w) :
    ∀ w ∈ lexAll escape t, P w := by
  obtain ⟨hfirst, hothers⟩ := Mark.of_mem_collect hnil happend h
  intro w hw
  rcases List.mem_append.1 hw with hw | hw
  · exact hfirst w (by simpa using hw)
  · exact hothers w hw

end

/-- Whether the word that a stretch contributes has names only. -/
def Mark.named : Mark → Bool
  | .part w => w.named
  | .blank => true

theorem named_append_of_named (v w : Word) (hv : v.named = true) (hw : w.named = true) : (v ++ w).named = true := by
  rw [named_append, hv, hw]
  rfl

theorem Mark.named_concat {ms : List Mark} (h : ∀ m ∈ ms, m.named = true) :
    (Mark.concat ms).named = true :=
  Mark.of_concat (P := fun w => w.named = true) rfl named_append_of_named fun w hw => h (.part w) hw

theorem named_scan (separates : Char → Bool) (escape : Char) (quoted : Bool) (t : Text) :
    ∀ m ∈ scan separates escape quoted t, m.named = true := by
  fun_induction scan separates escape quoted t with
  | case1 separates quoted => simp
  | case2 separates quoted c rest hblank ih => exact List.forall_mem_cons.2 ⟨rfl, ih⟩
  | case3 separates quoted c rest hblank hquote ih =>
    exact List.forall_mem_cons.2 ⟨named_literal _, ih⟩
  | case4 separates quoted rest hblank hquote ih => exact List.forall_mem_cons.2 ⟨rfl, ih⟩
  | case5 separates quoted => exact List.forall_mem_cons.2 ⟨rfl, by simp⟩
  | case6 separates quoted d after => exact List.forall_mem_cons.2 ⟨rfl, by assumption⟩
  | case7 separates quoted d after => exact List.forall_mem_cons.2 ⟨rfl, by assumption⟩
  | case8 separates quoted rest name after hread =>
    have hnamed := Reference.isNamed_read rest
    rw [hread] at hnamed
    have hname : isName name = true := hnamed
    exact List.forall_mem_cons.2 ⟨by simp [Mark.named, named, names, hname], by assumption⟩
  | case9 separates quoted rest name choice arg after hread _ _ _ _ _ _ iharg ih =>
    have hnamed := Reference.isNamed_read rest
    rw [hread] at hnamed
    have hname : isName name = true := hnamed
    have harg := Mark.named_concat iharg
    refine List.forall_mem_cons.2 ⟨?_, ih⟩
    simpa [Mark.named, named, names, hname] using harg
  | case10 separates quoted rest u after =>
    exact List.forall_mem_cons.2 ⟨named_literal _, by assumption⟩
  | case11 separates quoted c rest => exact List.forall_mem_cons.2 ⟨rfl, by assumption⟩

theorem named_lex (escape : Char) (t : Text) : (lex escape t).named = true :=
  Mark.named_concat (named_scan _ escape false t)

theorem named_lexAll (escape : Char) (t : Text) : ∀ w ∈ lexAll escape t, w.named = true :=
  of_mem_lexAll (P := fun w => w.named = true) rfl named_append_of_named
    fun w hw => named_scan isBlank escape false t (.part w) hw

theorem named_join (sep : Text) {ws : List Word} (h : ∀ w ∈ ws, w.named = true) :
    (join sep ws).named = true := by
  induction ws with
  | nil => rfl
  | cons w ws ih =>
    have hw := h w List.mem_cons_self
    have hws := ih fun v hv => h v (List.mem_cons_of_mem _ hv)
    cases ws with
    | nil => exact hw
    | cons v ws =>
      show (w ++ literal sep ++ join sep (v :: ws)).named = true
      rw [named_append, named_append, hw, named_literal, hws]
      rfl

theorem named_of_cutAt {sep : Char} {w after : Word} {before : Text}
    (h : w.cutAt sep = some (before, after)) (hw : w.named = true) : after.named = true := by
  obtain ⟨-, rfl⟩ := cutAt_eq_some_iff.1 h
  rw [named_append, Bool.and_eq_true] at hw
  exact hw.2

theorem named_withSlash {w : Word} (h : w.named = true) : w.withSlash.named = true := by
  unfold withSlash
  split
  · exact h
  · rw [named_append, h, named_literal, Bool.and_self]

end Word

namespace Environment

theorem mem_of_get? {env : Environment} {name : Text} {w : Word} (h : env.get? name = some w) :
    (name, w) ∈ env := by
  obtain ⟨before, after, rfl, -⟩ := List.lookup_eq_some_iff.1 h
  simp

/-- Whether all recorded words have names only. -/
def Named (env : Environment) : Prop := ∀ b ∈ env, b.2.named = true

theorem Named.get? {env : Environment} (h : env.Named) {name : Text} {w : Word}
    (hget : env.get? name = some w) : w.named = true :=
  h (name, w) (mem_of_get? hget)

theorem Named.expand {env : Environment} (h : env.Named) {w : Word} (hw : w.named = true) :
    (env.expand w).named = true := by
  induction w with
  | nil => rfl
  | char c rest ih => exact ih hw
  | var name rest ih =>
    simp only [Word.named, Word.names, List.all_cons, Bool.and_eq_true] at hw
    rw [Environment.expand]
    split
    · next value hget => rw [Word.named_append, h.get? hget, ih hw.2]; rfl
    · simpa [Word.named, Word.names, hw.1] using ih hw.2
  | cond name choice arg rest iharg ihrest =>
    simp only [Word.named, Word.names, List.cons_append, List.all_cons, List.all_append,
      Bool.and_eq_true] at hw
    obtain ⟨hname, harg, hrest⟩ := hw
    have hrest' := ihrest hrest
    have harg' := iharg harg
    unfold Environment.expand
    split
    · next value hget =>
      rw [Word.named_append, hrest', Bool.and_true]
      split
      · exact harg'
      · exact h.get? hget
    · rw [Word.named_append, hrest', Bool.and_true]
      split
      · rfl
      · exact harg'
    · simp only [Word.named] at harg' hrest'
      simp [Word.named, Word.names, hname, harg', hrest']

end Environment

end BuildScript
