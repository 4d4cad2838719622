import Mathlib.Data.List.Basic
import BuildScript.Dockerfile.Command
import BuildScript.Path
import BuildScript.Script

/-!
# Texts that are one line

A text is one line of a script if it has neither a line feed nor a NUL (`Unbroken`). What is written from
such texts is such a text again: quoting, joining and the work on paths add no character that breaks a
line.
-/

namespace BuildScript

namespace Text

/-- Whether a text can be one line of a script. -/
def Unbroken (t : Text) : Prop := ∀ c ∈ t, c ≠ '\n' ∧ c ≠ '\x00'

@[simp] theorem unbroken_nil : Unbroken [] := fun _ hc => (nomatch hc)

@[simp] theorem unbroken_cons {c : Char} {t : Text} :
    Unbroken (c :: t) ↔ (c ≠ '\n' ∧ c ≠ '\x00') ∧ Unbroken t :=
  List.forall_mem_cons

@[simp] theorem unbroken_append {s t : Text} : Unbroken (s ++ t) ↔ Unbroken s ∧ Unbroken t :=
  List.forall_mem_append

theorem Unbroken.mono {s t : Text} (h : Unbroken t) (hs : s ⊆ t) : Unbroken s :=
  fun c hc => h c (hs hc)

theorem unbroken_flatMap {α : Type} {f : α → Text} {xs : List α} :
    Unbroken (xs.flatMap f) ↔ ∀ x ∈ xs, Unbroken (f x) := by
  constructor
  · intro h x hx c hc
    exact h c (List.mem_flatMap.2 ⟨x, hx, hc⟩)
  · intro h c hc
    obtain ⟨x, hx, hc⟩ := List.mem_flatMap.1 hc
    exact h x hx c hc

theorem unbroken_join {sep : Text} (hsep : Unbroken sep) {ts : List Text}
    (h : ∀ t ∈ ts, Unbroken t) : Unbroken (join sep ts) := by
  intro c hc
  rcases mem_join hc with hc | ⟨t, ht, hc⟩
  · exact hsep c hc
  · exact h t ht c hc

end Text

open Text (Unbroken unbroken_join)

theorem Script.isBroken_eq_false_iff {t : Text} : Script.isBroken t = false ↔ Unbroken t := by
  simp [Script.isBroken, Unbroken]

/-- A fixed text is seen to be one line. -/
theorem Text.unbroken_of_not_isBroken {t : Text} (h : Script.isBroken t = false) : Unbroken t :=
  Script.isBroken_eq_false_iff.1 h

namespace Text

/-! ## Parts of a text -/

theorem trimStart_subset (t : Text) : trimStart t ⊆ t := (List.dropWhile_suffix isBlank).subset

theorem trimEnd_subset (t : Text) : trimEnd t ⊆ t := by
  intro c hc
  exact List.mem_reverse.1 ((List.dropWhile_suffix isBlank).subset (List.mem_reverse.1 hc))

theorem trim_subset (t : Text) : trim t ⊆ t := fun _ hc => trimStart_subset t (trimEnd_subset _ hc)

theorem beforeBlank_subset (t : Text) : (beforeBlank t).1 ⊆ t ∧ (beforeBlank t).2 ⊆ t :=
  ⟨(List.takeWhile_prefix _).subset, (List.dropWhile_suffix _).subset⟩

theorem dropTrailing_subset (c : Char) (t : Text) : dropTrailing c t ⊆ t := by
  intro d hd
  exact List.mem_reverse.1 ((List.dropWhile_suffix _).subset (List.mem_reverse.1 hd))

theorem subset_of_cutAt {sep : Char} {t before after : Text}
    (h : cutAt sep t = some (before, after)) : before ⊆ t ∧ after ⊆ t := by
  rw [(cutAt_eq_some h).1]
  exact ⟨List.subset_append_left _ _,
    fun c hc => List.mem_append_right _ (List.mem_cons_of_mem _ hc)⟩

theorem subset_of_mem_splitAt {sep : Char} {t piece : Text} (h : piece ∈ splitAt sep t) :
    piece ⊆ t := by
  induction t generalizing piece with
  | nil =>
    rw [splitAt, pieces, List.mem_singleton] at h
    rw [h]
    exact List.Subset.refl _
  | cons c rest ih =>
    by_cases hc : c = sep
    · have hpiece : piece = [] ∨ piece ∈ splitAt sep rest := by simpa [splitAt, pieces, hc] using h
      rcases hpiece with rfl | hpiece
      · exact List.nil_subset _
      · exact List.subset_cons_of_subset _ (ih hpiece)
    · have hpiece : piece = c :: (pieces sep rest).1 ∨ piece ∈ (pieces sep rest).2 := by
        simpa [splitAt, pieces, hc] using h
      rcases hpiece with rfl | hpiece
      · exact List.cons_subset_cons _ (ih List.mem_cons_self)
      · exact List.subset_cons_of_subset _ (ih (List.mem_cons_of_mem _ hpiece))

end Text

/-! ## Command lines -/

/-- What is left of a line has the characters of the line and spaces. -/
theorem mem_of_mem_collapse {q : Quoting} {pending : Bool} {t : Text} {c : Char}
    (h : c ∈ collapse q pending t) : c ∈ t ∨ c = ' ' := by
  induction q, pending, t using collapse.induct with
  | case1 => cases h
  | case2 q pending d rest hblank ih =>
    unfold collapse at h
    rw [if_pos hblank] at h
    exact (ih h).imp_left (List.mem_cons_of_mem _)
  | case3 q pending d rest hblank ihescaped ih =>
    unfold collapse at h
    rw [if_neg hblank] at h
    rcases List.mem_append.1 h with h | h
    · split at h
      · exact .inr (List.mem_singleton.1 h)
      · cases h
    · split at h
      · cases rest with
        | nil => exact .inl h
        | cons e after =>
          rcases List.mem_cons.1 h with rfl | h
          · exact .inl List.mem_cons_self
          · rcases List.mem_cons.1 h with rfl | h
            · exact .inl (List.mem_cons_of_mem _ List.mem_cons_self)
            · exact (ihescaped h).imp_left fun h => List.mem_cons_of_mem _ (List.mem_cons_of_mem _ h)
      · rcases List.mem_cons.1 h with rfl | h
        · exact .inl List.mem_cons_self
        · exact (ih h).imp_left (List.mem_cons_of_mem _)

theorem unbroken_normalizeBlanks {t : Text} (h : Unbroken t) : Unbroken (normalizeBlanks t) := by
  intro c hc
  rcases mem_of_mem_collapse hc with hc | rfl
  · exact h c (Text.trim_subset t hc)
  · decide

namespace Shell

theorem unbroken_escapeDouble {t : Text} (h : Unbroken t) : Unbroken (escapeDouble t) := by
  refine Text.unbroken_flatMap.2 fun c hc => ?_
  have hc := h c hc
  split <;> simpa using hc

theorem unbroken_quote {t : Text} (h : Unbroken t) : Unbroken (quote t) := by
  unfold quote
  split
  · exact Text.unbroken_of_not_isBroken rfl
  · split
    · exact h
    · have hescaped : Unbroken (t.flatMap escapeSingle) := by
        refine Text.unbroken_flatMap.2 fun c hc => ?_
        unfold escapeSingle
        split
        · exact Text.unbroken_of_not_isBroken rfl
        · simpa using h c hc
      simpa [singleQuoted] using hescaped

/-- A literal stretch grows to the left, so what a stretch holds is found by induction on the pattern. -/
theorem mem_of_mem_globParts (t : Text) :
    (∀ c, .live c ∈ globParts t → c ∈ t) ∧ ∀ u, .literal u ∈ globParts t → u ⊆ t := by
  induction t with
  | nil => exact ⟨fun _ hp => (nomatch hp), fun _ hp => (nomatch hp)⟩
  | cons c rest ih =>
    obtain ⟨hlive, hliteral⟩ := ih
    rw [globParts]
    split
    · constructor
      · intro d hd
        rcases List.mem_cons.1 hd with heq | hd
        · cases heq
          exact List.mem_cons_self
        · exact List.mem_cons_of_mem _ (hlive d hd)
      · intro u hu
        exact List.subset_cons_of_subset _ (hliteral u (by simpa using hu))
    · split
      · next v parts heq =>
        rw [heq] at hlive hliteral
        constructor
        · intro d hd
          exact List.mem_cons_of_mem _ (hlive d (by simpa using hd))
        · intro u hu
          rcases List.mem_cons.1 hu with heq | hu
          · cases heq
            exact List.cons_subset_cons _ (hliteral v List.mem_cons_self)
          · exact List.subset_cons_of_subset _ (hliteral u (List.mem_cons_of_mem _ hu))
      · constructor
        · intro d hd
          exact List.mem_cons_of_mem _ (hlive d (by simpa using hd))
        · intro u hu
          rcases List.mem_cons.1 hu with heq | hu
          · cases heq
            exact List.cons_subset_cons _ (List.nil_subset _)
          · exact List.subset_cons_of_subset _ (hliteral u hu)

theorem unbroken_globParts {t : Text} (h : Unbroken t) :
    ∀ p ∈ globParts t, Unbroken p.render := by
  obtain ⟨hlive, hliteral⟩ := mem_of_mem_globParts t
  intro p hp
  cases p with
  | live c => exact Text.unbroken_cons.2 ⟨h c (hlive c hp), Text.unbroken_nil⟩
  | literal u => exact unbroken_quote (h.mono (hliteral u hp))

theorem unbroken_quoteGlob {t : Text} (h : Unbroken t) : Unbroken (quoteGlob t) := by
  unfold quoteGlob
  split
  · exact Text.unbroken_flatMap.2 (unbroken_globParts h)
  · exact unbroken_quote h

theorem unbroken_joinWords {ts : List Text} (h : ∀ t ∈ ts, Unbroken t) : Unbroken (joinWords ts) := by
  apply unbroken_join (Text.unbroken_of_not_isBroken rfl)
  intro u hu
  obtain ⟨t, ht, rfl⟩ := List.mem_map.1 hu
  exact unbroken_quote (h t ht)

end Shell

theorem Command.unbroken_commandLine {raw : Text} (hraw : Unbroken raw)
    (hitems : ∀ items, execItems? raw = some items → ∀ t ∈ items, Unbroken t) :
    Unbroken (Command.ofText raw).commandLine := by
  unfold Command.ofText
  cases hexec : execItems? raw with
  | some items => exact Shell.unbroken_joinWords (hitems items hexec)
  | none => exact unbroken_normalizeBlanks hraw

/-! ## Paths -/

namespace Path

theorem mem_of_mem_foldl_push {pieces seen : List Text} {component : Text}
    (h : component ∈ pieces.foldl push seen) : component ∈ pieces ∨ component ∈ seen := by
  induction pieces generalizing seen with
  | nil => exact .inr h
  | cons piece rest ih =>
    rcases ih h with h | h
    · exact .inl (List.mem_cons_of_mem _ h)
    · unfold push at h
      split at h
      · exact .inr h
      · split at h
        · exact .inr (List.mem_of_mem_tail h)
        · rcases List.mem_cons.1 h with rfl | h
          · exact .inl List.mem_cons_self
          · exact .inr h

theorem subset_of_mem_components {path component : Text} (h : component ∈ components path) :
    component ⊆ path := by
  rcases mem_of_mem_foldl_push (List.mem_reverse.1 h) with h | h
  · exact Text.subset_of_mem_splitAt h
  · cases h

theorem unbroken_normalize {path : Text} (h : Unbroken path) : Unbroken (normalize path) := by
  have hcomponents : Unbroken (Text.join ['/'] (components path)) :=
    unbroken_join (Text.unbroken_of_not_isBroken rfl) fun _ hc =>
      h.mono (subset_of_mem_components hc)
  have hend : ∀ b : Bool, Unbroken (if b then ['/'] else []) := by
    intro b
    cases b <;> exact Text.unbroken_of_not_isBroken rfl
  simp only [normalize, List.cons_append, Text.unbroken_cons, Text.unbroken_append]
  exact ⟨by decide, hcomponents, hend _⟩

theorem unbroken_parent {path : Text} (h : Unbroken path) : Unbroken (parent path) := by
  simp only [parent]
  split
  · exact Text.unbroken_of_not_isBroken rfl
  · apply h.mono
    intro c hc
    have hdrop := (List.dropWhile_suffix _).subset (List.mem_of_mem_tail (List.mem_reverse.1 hc))
    exact Text.dropTrailing_subset '/' path (List.mem_reverse.1 hdrop)

theorem unbroken_below {base path : Text} (hbase : Unbroken base) (hpath : Unbroken path) :
    Unbroken (below base path) := by
  unfold below
  split
  · exact hpath
  · split
    · exact Text.unbroken_append.2 ⟨hbase, hpath⟩
    · exact Text.unbroken_append.2 ⟨hbase, Text.unbroken_cons.2 ⟨by decide, hpath⟩⟩

theorem unbroken_fileName? {path name : Text} (h : Unbroken path)
    (hname : fileName? path = some name) : Unbroken name := by
  unfold fileName? at hname
  split at hname
  · next last hlast =>
    split at hname
    · cases hname
    · cases hname
      have hmem := List.mem_of_mem_filter (List.mem_of_getLast? hlast)
      exact h.mono (Text.subset_of_mem_splitAt hmem)
  · cases hname

end Path

end BuildScript
