import BuildScript.Proofs.Posix.Quoting
import BuildScript.Proofs.Text.Unbroken
import BuildScript.Proofs.Word.Names

/-!
# The characters of words

What a word has of literal text, in modifiers too (`Word.chars`). Reading adds none: the words that are
read from a text have characters of that text only (`chars_lexAll`, `chars_lex`), and a word that is
expanded has its own and those of recorded words (`Environment.mem_chars_expand`). So a word is written
on one line if its characters can stand on one (`Word.unbroken_toShell`).
-/

namespace BuildScript

/-- A character is the brace that closes, or it stands in front of what is cut behind it. -/
theorem closeBrace_cons (depth : Nat) (c : Char) :
    (c = '}' ∧ ∀ rest, closeBrace depth (c :: rest) = some ([], rest)) ∨
      ∃ depth', ∀ rest, closeBrace depth (c :: rest) = (closeBrace depth' rest).map fun cut => (c :: cut.1, cut.2) := by
  by_cases hc : c = '}'
  · cases depth with
    | zero => exact .inl ⟨hc, fun rest => if_pos hc⟩
    | succ depth => exact .inr ⟨depth, fun rest => if_pos hc⟩
  · exact .inr ⟨if c = '{' then depth + 1 else depth, fun rest => by rw [closeBrace.eq_def]; exact if_neg hc⟩

theorem closeBrace_eq_some {depth : Nat} {t inner after : Text}
    (h : closeBrace depth t = some (inner, after)) : t = inner ++ '}' :: after := by
  induction t generalizing depth inner with
  | nil => cases h
  | cons c rest ih =>
    rcases closeBrace_cons depth c with ⟨rfl, hclose⟩ | ⟨depth', hcons⟩
    · rw [hclose] at h
      cases h
      rfl
    · rw [hcons] at h
      obtain ⟨⟨i, a⟩, hi, heq⟩ := Option.map_eq_some_iff.1 h
      cases heq
      rw [ih hi]
      rfl

namespace Reference

/-- The characters that a reference has besides the name of its variable. -/
def chars : Reference → Text
  | .var _ => []
  | .cond _ _ arg => arg
  | .literal t => t

theorem chars_ofBraced (inner : Text) : (ofBraced inner).chars ⊆ '$' :: '{' :: inner ++ ['}'] := by
  have hinner : inner ⊆ '$' :: '{' :: inner ++ ['}'] := fun c hc => by simp [hc]
  have hcond : ∀ {name arg : Text} {mark : Char}, Text.cutAt ':' inner = some (name, mark :: arg) →
      arg ⊆ '$' :: '{' :: inner ++ ['}'] := by
    intro name arg mark hcut
    exact List.Subset.trans (List.subset_cons_self mark arg)
      (List.Subset.trans (Text.subset_of_cutAt hcut).2 hinner)
  unfold ofBraced
  split
  · next hcut =>
    split
    · exact hcond hcut
    · exact List.Subset.refl _
  · next hcut =>
    split
    · exact hcond hcut
    · exact List.Subset.refl _
  · exact List.Subset.refl _
  · split
    · exact List.nil_subset _
    · exact List.Subset.refl _

theorem chars_read (t : Text) : (read t).1.chars ⊆ '$' :: t := by
  rcases read_cases t with ⟨u, inner, after, rfl, hclose, hread⟩ | ⟨c, u, rfl, -, hread⟩ | hread
  · rw [hread, closeBrace_eq_some hclose]
    refine List.Subset.trans (chars_ofBraced inner) ?_
    intro d hd
    simp only [List.cons_append, List.mem_cons, List.mem_append, List.not_mem_nil, or_false] at hd ⊢
    tauto
  · rw [hread]
    exact List.nil_subset _
  · rw [hread]
    exact List.cons_subset_cons _ (List.nil_subset t)

theorem after_read_subset (t : Text) : (read t).2 ⊆ t := by
  rcases read_cases t with ⟨u, inner, after, rfl, hclose, hread⟩ | ⟨c, u, rfl, -, hread⟩ | hread
  · rw [hread, closeBrace_eq_some hclose]
    exact List.subset_cons_of_subset _
      (List.subset_append_of_subset_right _ (List.subset_cons_self _ _))
  · rw [hread]
    exact List.subset_cons_of_subset _ (List.dropWhile_suffix isNameChar).subset
  · rw [hread]
    exact List.Subset.refl t

end Reference

namespace Word

/-- The characters of a word, in modifiers too, from left to right. -/
def chars : Word → Text
  | .nil => []
  | .char c rest => c :: chars rest
  | .var _ rest => chars rest
  | .cond _ _ arg rest => chars arg ++ chars rest

@[simp] theorem chars_append (v w : Word) : (v ++ w).chars = v.chars ++ w.chars := by
  induction v with
  | nil => rfl
  | char c rest ih => simp [chars, ih]
  | var name rest ih => simp [chars, ih]
  | cond name choice arg rest _ ih => simp [chars, ih]

@[simp] theorem chars_literal (t : Text) : (literal t).chars = t := by
  induction t with
  | nil => rfl
  | cons c rest ih => simp [literal, chars, ih]

/-! ## Words that are read -/

/-- The characters that a stretch contributes. -/
def Mark.chars : Mark → Text
  | .part w => w.chars
  | .blank => []

theorem chars_append_subset {t : Text} (v w : Word) (hv : v.chars ⊆ t) (hw : w.chars ⊆ t) :
    (v ++ w).chars ⊆ t := by
  rw [chars_append]
  exact List.append_subset.2 ⟨hv, hw⟩

theorem Mark.chars_concat {ms : List Mark} {t : Text} (h : ∀ m ∈ ms, m.chars ⊆ t) :
    (Mark.concat ms).chars ⊆ t :=
  Mark.of_concat (P := fun w => w.chars ⊆ t) (List.nil_subset t) chars_append_subset
    fun w hw => h (.part w) hw

theorem chars_scan (separates : Char → Bool) (escape : Char) (quoted : Bool) (t : Text) :
    ∀ m ∈ scan separates escape quoted t, m.chars ⊆ t := by
  have hlater : ∀ {ms : List Mark} {s t : Text}, (∀ m ∈ ms, m.chars ⊆ s) → s ⊆ t →
      ∀ m ∈ ms, m.chars ⊆ t := fun h hs m hm => List.Subset.trans (h m hm) hs
  fun_induction scan separates escape quoted t with
  | case1 separates quoted => simp
  | case2 separates quoted c rest hblank ih =>
    exact List.forall_mem_cons.2
      ⟨List.nil_subset _, hlater ih (List.subset_cons_self _ _)⟩
  | case3 separates quoted c rest hblank hquote ih =>
    refine List.forall_mem_cons.2 ⟨?_, hlater ih ?_⟩
    · rw [Mark.chars, chars_literal]
      exact List.subset_cons_of_subset _ (List.takeWhile_prefix _).subset
    · exact List.subset_cons_of_subset _
        (List.Subset.trans (List.tail_suffix _).subset (List.dropWhile_suffix _).subset)
  | case4 separates quoted rest hblank hquote ih =>
    exact List.forall_mem_cons.2
      ⟨List.nil_subset _, hlater ih (List.subset_cons_self _ _)⟩
  | case5 separates quoted => exact List.forall_mem_cons.2 ⟨List.Subset.refl _, by simp⟩
  | case6 separates quoted d after hblank hquote hdouble hprotected ih =>
    refine List.forall_mem_cons.2 ⟨?_, hlater ih ?_⟩
    · exact List.subset_cons_of_subset _ (List.cons_subset_cons _ (List.nil_subset _))
    · exact List.subset_cons_of_subset _ (List.subset_cons_self _ _)
  | case7 separates quoted d after hblank hquote hdouble hprotected ih =>
    exact List.forall_mem_cons.2
      ⟨List.cons_subset_cons _ (List.nil_subset _), hlater ih (List.subset_cons_self _ _)⟩
  | case8 separates quoted rest name after hread hlength _ _ _ _ ih =>
    have hafter := Reference.after_read_subset rest
    rw [hread] at hafter
    exact List.forall_mem_cons.2
      ⟨List.nil_subset _, hlater ih (List.subset_cons_of_subset _ hafter)⟩
  | case9 separates quoted rest name choice arg after hread _ _ _ _ _ _ iharg ih =>
    have hafter := Reference.after_read_subset rest
    have hchars := Reference.chars_read rest
    rw [hread] at hafter hchars
    refine List.forall_mem_cons.2 ⟨?_, hlater ih (List.subset_cons_of_subset _ hafter)⟩
    have harg := List.Subset.trans (Mark.chars_concat iharg) hchars
    simpa [Mark.chars, chars] using harg
  | case10 separates quoted rest u after hread hlength _ _ _ _ ih =>
    have hafter := Reference.after_read_subset rest
    have hchars := Reference.chars_read rest
    rw [hread] at hafter hchars
    refine List.forall_mem_cons.2 ⟨?_, hlater ih (List.subset_cons_of_subset _ hafter)⟩
    rw [Mark.chars, chars_literal]
    exact hchars
  | case11 separates quoted c rest hblank hquote hdouble hescape hdollar ih =>
    exact List.forall_mem_cons.2
      ⟨List.cons_subset_cons _ (List.nil_subset _), hlater ih (List.subset_cons_self _ _)⟩

theorem chars_lex (escape : Char) (t : Text) : (lex escape t).chars ⊆ t :=
  Mark.chars_concat (chars_scan _ escape false t)

theorem chars_lexAll (escape : Char) (t : Text) : ∀ w ∈ lexAll escape t, w.chars ⊆ t :=
  of_mem_lexAll (P := fun w => w.chars ⊆ t) (List.nil_subset t) chars_append_subset
    fun w hw => chars_scan isBlank escape false t (.part w) hw

/-! ## Words that are made of others -/

theorem chars_of_cutAt {sep : Char} {w after : Word} {before : Text}
    (h : w.cutAt sep = some (before, after)) : before ⊆ w.chars ∧ after.chars ⊆ w.chars := by
  obtain ⟨-, rfl⟩ := cutAt_eq_some_iff.1 h
  rw [chars_append, chars_literal, chars]
  exact ⟨List.subset_append_left _ _, List.subset_append_of_subset_right _ (List.subset_cons_self _ _)⟩

theorem chars_of_text? {w : Word} {t : Text} (h : w.text? = some t) : w.chars = t := by
  rw [eq_literal_of_text? h, chars_literal]

end Word

namespace Environment

/-- A word that is expanded has its own characters and those of recorded words. -/
theorem mem_chars_expand {env : Environment} {w : Word} {c : Char} (h : c ∈ (env.expand w).chars) :
    c ∈ w.chars ∨ ∃ b ∈ env, c ∈ b.2.chars := by
  induction w with
  | nil => exact .inl h
  | char d rest ih =>
    rcases List.mem_cons.1 h with rfl | h
    · exact .inl List.mem_cons_self
    · exact (ih h).imp_left (List.mem_cons_of_mem _)
  | var name rest ih =>
    rw [Environment.expand] at h
    split at h
    · next value hget =>
      rw [Word.chars_append, List.mem_append] at h
      rcases h with h | h
      · exact .inr ⟨(name, value), mem_of_get? hget, h⟩
      · exact ih h
    · exact ih h
  | cond name choice arg rest iharg ihrest =>
    -- Either branch of a modifier is made of the word of the modifier and of a recorded one.
    have harg : c ∈ (env.expand arg).chars →
        c ∈ (Word.cond name choice arg rest).chars ∨ ∃ b ∈ env, c ∈ b.2.chars := fun h =>
      (iharg h).imp_left (List.mem_append_left _)
    have hrest : c ∈ (env.expand rest).chars →
        c ∈ (Word.cond name choice arg rest).chars ∨ ∃ b ∈ env, c ∈ b.2.chars := fun h =>
      (ihrest h).imp_left (List.mem_append_right _)
    unfold Environment.expand at h
    split at h
    · next value hget =>
      rw [Word.chars_append, List.mem_append] at h
      rcases h with h | h
      · split at h
        · exact harg h
        · exact .inr ⟨(name, value), mem_of_get? hget, h⟩
      · exact hrest h
    · rw [Word.chars_append, List.mem_append] at h
      rcases h with h | h
      · split at h
        · cases h
        · exact harg h
      · exact hrest h
    · rcases List.mem_append.1 h with h | h
      · exact harg h
      · exact hrest h

end Environment

/-! ## Words that are written -/

open Text (Unbroken)

theorem unbroken_of_isName {t : Text} (h : isName t = true) : Unbroken t := by
  intro c hc
  have hchar := isNameChar_of_mem_isName h hc
  constructor
  · rintro rfl
    cases hchar
  · rintro rfl
    cases hchar

namespace Word

theorem unbroken_reference {name modifier : Text} (hname : isName name = true)
    (hmodifier : Unbroken modifier) : Unbroken (Shell.reference name modifier) := by
  simpa [Shell.reference, hmodifier] using unbroken_of_isName hname

theorem unbroken_toDoubleQuoted {w : Word} (hnamed : w.named = true) (h : Unbroken w.chars) :
    Unbroken w.toDoubleQuoted := by
  induction w with
  | nil => exact h
  | char c rest ih =>
    rw [chars, Text.unbroken_cons] at h
    rw [toDoubleQuoted, Text.unbroken_append]
    exact ⟨Shell.unbroken_escapeDouble (Text.unbroken_cons.2 ⟨h.1, Text.unbroken_nil⟩), ih hnamed h.2⟩
  | var name rest ih =>
    simp only [named, names, List.all_cons, Bool.and_eq_true] at hnamed
    rw [toDoubleQuoted, Text.unbroken_append]
    exact ⟨unbroken_reference hnamed.1 Text.unbroken_nil, ih hnamed.2 h⟩
  | cond name choice arg rest iharg ihrest =>
    simp only [named, names, List.cons_append, List.all_cons, List.all_append, Bool.and_eq_true] at hnamed
    obtain ⟨hname, harg, hrest⟩ := hnamed
    rw [chars, Text.unbroken_append] at h
    have hoperator : Unbroken choice.operator := by
      cases choice <;> exact Text.unbroken_of_not_isBroken rfl
    rw [toDoubleQuoted, Text.unbroken_append]
    exact ⟨unbroken_reference hname (Text.unbroken_append.2 ⟨hoperator, iharg harg h.1⟩),
      ihrest hrest h.2⟩

theorem chars_of_mem_concat {v : Word} {ws : List Word} (h : v ∈ ws) : v.chars ⊆ (concat ws).chars := by
  induction ws with
  | nil => cases h
  | cons w ws ih =>
    show v.chars ⊆ (w ++ concat ws).chars
    rw [chars_append]
    rcases List.mem_cons.1 h with rfl | h
    · exact List.subset_append_left _ _
    · exact List.subset_append_of_subset_right _ (ih h)

/-- What a word has if and only if its two parts have it, the words have that a word is put together from. -/
theorem of_mem_concat {p : Word → Bool} (happend : ∀ v w, p (v ++ w) = (p v && p w)) {v : Word}
    {ws : List Word} (h : v ∈ ws) (hws : p (concat ws) = true) : p v = true := by
  induction ws with
  | nil => cases h
  | cons w ws ih =>
    change p (w ++ concat ws) = true at hws
    rw [happend, Bool.and_eq_true] at hws
    rcases List.mem_cons.1 h with rfl | h
    · exact hws.1
    · exact ih h hws.2

theorem unbroken_render {quote : Text → Text} (hquote : ∀ t, Unbroken t → Unbroken (quote t)) {w : Word}
    (hnamed : w.named = true) (h : Unbroken w.chars) : Unbroken (w.render quote) := by
  unfold render
  split
  · exact Text.unbroken_of_not_isBroken rfl
  · refine Text.unbroken_flatMap.2 fun s hs => ?_
    have hword : s.word ∈ w.segments.map Segment.word := List.mem_map_of_mem hs
    have hconcat := w.segments_spec.1
    have hsnamed : s.word.named = true := of_mem_concat named_append hword (hconcat.symm ▸ hnamed)
    have hschars : Unbroken s.word.chars := h.mono (hconcat ▸ chars_of_mem_concat hword)
    -- A reference is written as a word between double quotes that has nothing else.
    have hdouble : s.render quote = '"' :: s.word.toDoubleQuoted ++ ['"'] →
        Unbroken (s.render quote) := by
      intro htext
      rw [htext]
      simpa using unbroken_toDoubleQuoted hsnamed hschars
    cases s with
    | literal t =>
      apply hquote
      simpa [Segment.word] using hschars
    | var name => exact hdouble (by simp [Segment.render, Segment.word, toDoubleQuoted])
    | cond name choice arg => exact hdouble (by simp [Segment.render, Segment.word, toDoubleQuoted])

theorem unbroken_toShell {w : Word} (hnamed : w.named = true) (h : Unbroken w.chars) :
    Unbroken w.toShell :=
  unbroken_render (fun _ => Shell.unbroken_quote) hnamed h

theorem unbroken_toShellGlob {w : Word} (hnamed : w.named = true) (h : Unbroken w.chars) :
    Unbroken w.toShellGlob :=
  unbroken_render (fun _ => Shell.unbroken_quoteGlob) hnamed h

end Word

end BuildScript
