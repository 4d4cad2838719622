/-!
# Texts

A text is a list of characters. Everything this library computes on strings is computed on that
list, so that each function is a recursion over its input; a `String` is opened where it is read and
closed where it is printed.

Two ways to cut a text at a separator are defined here: once, at its first occurrence (`cutAt`), and
at every occurrence (`pieces`). The first loses nothing but the separator (`cutAt_eq_some`).
-/

namespace BuildScript

/-- A text, as its characters. -/
abbrev Text := List Char

namespace Text

/-- Cuts a text at the first `sep`: what stands before it and what stands after it. -/
def cutAt (sep : Char) : Text → Option (Text × Text)
  | [] => none
  | c :: rest =>
    if c = sep then some ([], rest)
    else (cutAt sep rest).map fun (before, after) => (c :: before, after)

theorem cutAt_eq_some {sep : Char} {t before after : Text}
    (h : cutAt sep t = some (before, after)) : t = before ++ sep :: after ∧ sep ∉ before := by
  induction t generalizing before with
  | nil => simp [cutAt] at h
  | cons c rest ih =>
    unfold cutAt at h
    split at h
    · next hc => cases h; simp [hc]
    · next hc =>
      obtain ⟨⟨b, a⟩, hb, heq⟩ := Option.map_eq_some_iff.1 h
      cases heq
      obtain ⟨rfl, hmem⟩ := ih hb
      simp [hmem, Ne.symm hc]

theorem cutAt_eq_none {sep : Char} {t : Text} : cutAt sep t = none ↔ sep ∉ t := by
  induction t with
  | nil => simp [cutAt]
  | cons c rest ih =>
    unfold cutAt
    split
    · next hc => simp [hc]
    · next hc => simp [ih, Ne.symm hc]

theorem cutAt_append {sep : Char} {before : Text} (h : sep ∉ before) (after : Text) :
    cutAt sep (before ++ sep :: after) = some (before, after) := by
  induction before with
  | nil => simp [cutAt]
  | cons c rest ih =>
    rw [List.mem_cons, not_or] at h
    rw [List.cons_append, cutAt, if_neg (Ne.symm h.1), ih h.2]
    rfl

/-- Cuts a text at every `sep`. There is always at least one piece, so the first one is given apart
from the others. -/
def pieces (sep : Char) : Text → Text × List Text
  | [] => ([], [])
  | c :: rest =>
    let (first, others) := pieces sep rest
    if c = sep then ([], first :: others) else (c :: first, others)

/-- The pieces of a text as one list, which is never empty. -/
def splitAt (sep : Char) (t : Text) : List Text :=
  (pieces sep t).1 :: (pieces sep t).2

/-- Joins texts with a separator text between neighbours. -/
def join (sep : Text) : List Text → Text
  | [] => []
  | [t] => t
  | t :: ts => t ++ sep ++ join sep ts

theorem join_cons_cons (sep t u : Text) (ts : List Text) :
    join sep (t :: u :: ts) = t ++ sep ++ join sep (u :: ts) := rfl

theorem join_cons {sep : Text} {ts : List Text} (h : ts ≠ []) (t : Text) :
    join sep (t :: ts) = t ++ sep ++ join sep ts := by
  obtain ⟨u, us, rfl⟩ := List.exists_cons_of_ne_nil h
  rfl

theorem join_append {sep : Text} {ts us : List Text} (ht : ts ≠ []) (hu : us ≠ []) :
    join sep (ts ++ us) = join sep ts ++ sep ++ join sep us := by
  induction ts with
  | nil => exact absurd rfl ht
  | cons t ts ih =>
    by_cases hts : ts = []
    · rw [hts, List.singleton_append, join_cons hu]
      rfl
    · rw [List.cons_append, join_cons (by simp [hts]), join_cons hts, ih hts]
      simp

theorem join_append_singleton {sep : Text} {ts : List Text} (h : ts ≠ []) (t : Text) :
    join sep (ts ++ [t]) = join sep ts ++ sep ++ t := join_append h (List.cons_ne_nil t [])

theorem join_ne_nil {sep : Text} {ts : List Text} (h : ∀ t ∈ ts, t ≠ []) (hne : ts ≠ []) :
    join sep ts ≠ [] := by
  obtain ⟨t, rest, rfl⟩ := List.exists_cons_of_ne_nil hne
  have ht := h t List.mem_cons_self
  by_cases hrest : rest = []
  · rw [hrest]
    exact ht
  · rw [join_cons hrest]
    simp [ht]

theorem mem_join {sep : Text} {ts : List Text} {c : Char} (h : c ∈ join sep ts) :
    c ∈ sep ∨ ∃ t ∈ ts, c ∈ t := by
  induction ts with
  | nil => cases h
  | cons t rest ih =>
    by_cases hrest : rest = []
    · rw [hrest] at h
      exact .inr ⟨t, List.mem_cons_self, h⟩
    · rw [join_cons hrest, List.mem_append, List.mem_append] at h
      rcases h with (h | h) | h
      · exact .inr ⟨t, List.mem_cons_self, h⟩
      · exact .inl h
      · rcases ih h with h | ⟨u, hu, h⟩
        · exact .inl h
        · exact .inr ⟨u, List.mem_cons_of_mem _ hu, h⟩

theorem head?_join_cons {sep t : Text} (h : t ≠ []) (ts : List Text) :
    (join sep (t :: ts)).head? = t.head? := by
  obtain ⟨c, rest, rfl⟩ := List.exists_cons_of_ne_nil h
  cases ts with
  | nil => rfl
  | cons u us => rfl

theorem getLast?_join_append_singleton {sep t : Text} (h : t ≠ []) (ts : List Text) :
    (join sep (ts ++ [t])).getLast? = t.getLast? := by
  by_cases hts : ts = []
  · rw [hts]
    rfl
  · rw [join_append_singleton hts, List.getLast?_append, List.getLast?_eq_some_getLast h]
    rfl

/-- Removes every `c` from the end of a text. -/
def dropTrailing (c : Char) (t : Text) : Text :=
  (t.reverse.dropWhile (· = c)).reverse

/-- The ASCII letters of a text made capital; all else stays. -/
def upper (t : Text) : Text := t.map Char.toUpper

/-- The ASCII letters of a text made small; all else stays. -/
def lower (t : Text) : Text := t.map Char.toLower

/-- The decimal digits of a number. -/
def ofNat (n : Nat) : Text := Nat.toDigits 10 n

end Text

end BuildScript
