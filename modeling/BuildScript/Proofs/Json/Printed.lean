import Mathlib.Data.List.Basic
import BuildScript.Json.Strings
import BuildScript.Proofs.Text.Trim

/-!
# Printed JSON

Texts that are written as a JSON array of strings (`array`) are read again, whatever characters they have
(`strings?_array`). What is written is one line without blanks at its ends.
-/

namespace BuildScript.Json

/-- Texts as a JSON array of strings, without white space. -/
def array (items : List Text) : Text :=
  '[' :: Text.join [','] (items.map quoted) ++ [']']

/-! ## Strings -/

/-- A character is written as itself, or as an escape that stands for it. -/
theorem escape_cases (c : Char) :
    (escape c = [c] ∧ c ≠ '"' ∧ c ≠ '\\' ∧ ¬c.toNat < 32) ∨
      ∃ e, escape c = '\\' :: e ∧ ∀ rest, unescape? (e ++ rest) = some (c, rest) := by
  have hsame : ∀ {n : Nat}, c.toNat = n → c = Char.ofNat n := by
    rintro n rfl
    exact (Char.ofNat_toNat c).symm
  unfold escape
  split
  · next hc => exact .inr ⟨['"'], rfl, fun rest => by rw [hc]; rfl⟩
  · next hquote =>
    split
    · next hc => exact .inr ⟨['\\'], rfl, fun rest => by rw [hc]; rfl⟩
    · next hescape =>
      split
      · next hc => exact .inr ⟨['n'], rfl, fun rest => by rw [hc]; rfl⟩
      · split
        · next hc => exact .inr ⟨['r'], rfl, fun rest => by rw [hc]; rfl⟩
        · split
          · next hc => exact .inr ⟨['t'], rfl, fun rest => by rw [hc]; rfl⟩
          · split
            · next hc => exact .inr ⟨['b'], rfl, fun rest => by rw [hsame hc]; rfl⟩
            · split
              · next hc => exact .inr ⟨['f'], rfl, fun rest => by rw [hsame hc]; rfl⟩
              · split
                · next hc =>
                  refine .inr ⟨'u' :: Hex.four c.toNat, rfl, fun rest => ?_⟩
                  have hfour := Hex.four?_four (n := c.toNat) (by omega) rest
                  have hunicode : unicode? (Hex.four c.toNat ++ rest) = some (c, rest) := by
                    rw [unicode?, hfour]
                    simp only
                    rw [if_pos (Or.inl (by omega)), ← hsame rfl]
                  exact hunicode
                · next hc => exact .inl ⟨rfl, hquote, hescape, hc⟩

/-- What is written between quotes is read up to the quote that closes. -/
theorem body?_escape (t rest : Text) : body? (t.flatMap escape ++ '"' :: rest) = some (t, rest) := by
  induction t with
  | nil =>
    rw [List.flatMap_nil, List.nil_append, body?]
    rfl
  | cons c t ih =>
    rw [List.flatMap_cons, List.append_assoc]
    rcases escape_cases c with ⟨hself, hquote, hescape, hcontrol⟩ | ⟨e, he, hread⟩
    · rw [hself, List.singleton_append, body?, if_neg hquote, if_neg hescape, if_neg hcontrol, ih]
      rfl
    · rw [he, List.cons_append, body?, if_neg (by decide), if_pos rfl]
      split
      · next hnone =>
        rw [hread] at hnone
        cases hnone
      · next d after hsome =>
        rw [hread] at hsome
        cases hsome
        rw [ih]
        rfl

theorem quoted_append (t rest : Text) : quoted t ++ rest = '"' :: (t.flatMap escape ++ '"' :: rest) := by
  simp [quoted]

/-! ## Arrays -/

theorem skipSpace_cons {c : Char} (h : isSpace c = false) (rest : Text) :
    skipSpace (c :: rest) = c :: rest :=
  List.dropWhile_cons_of_neg (by simp [h])

/-- An item is read, and what follows it tells whether there are more. -/
theorem items?_quoted (item after : Text) :
    items? (quoted item ++ after) =
      match skipSpace after with
      | ']' :: rest => some ([item], rest)
      | ',' :: more => (items? more).map fun (others, rest) => (item :: others, rest)
      | _ => none := by
  have hskip : skipSpace (quoted item ++ after) = '"' :: (item.flatMap escape ++ '"' :: after) := by
    rw [quoted_append, skipSpace_cons (by decide)]
  rw [items?]
  split
  · next rest hrest =>
    obtain rfl := (List.cons.inj (hskip.symm.trans hrest)).2
    split
    · next hnone =>
      rw [body?_escape] at hnone
      cases hnone
    · next value rest hsome =>
      rw [body?_escape] at hsome
      cases hsome
      split <;> simp_all
  · next hnot => exact absurd hskip (hnot _)

theorem items?_join (item : Text) (others : List Text) (rest : Text) :
    items? (Text.join [','] ((item :: others).map quoted) ++ ']' :: rest) =
      some (item :: others, rest) := by
  induction others generalizing item with
  | nil =>
    rw [List.map_singleton, Text.join, items?_quoted, skipSpace_cons (by decide)]
    rfl
  | cons next more ih =>
    rw [List.map_cons, Text.join_cons (by simp), List.append_assoc, List.append_assoc, items?_quoted,
      List.singleton_append, skipSpace_cons (by decide)]
    simp only [ih]
    rfl

/-- Texts that are written as an array are read again. -/
theorem strings?_array (items : List Text) : strings? (array items) = some items := by
  have hskip : skipSpace (array items) =
      '[' :: (Text.join [','] (items.map quoted) ++ [']']) := skipSpace_cons (by decide) _
  rw [strings?, hskip]
  cases items with
  | nil => rfl
  | cons item others =>
    -- The first item begins with a quote, so the array is not taken for an empty one.
    obtain ⟨u, hu⟩ : ∃ u, Text.join [','] ((item :: others).map quoted) ++ [']'] = '"' :: u := by
      cases others with
      | nil => exact ⟨_, quoted_append item [']']⟩
      | cons next more => exact ⟨_, by rw [List.map_cons, Text.join_cons (by simp)]; rfl⟩
    have hitems := items?_join item others []
    rw [hu] at hitems
    simp only [hu, skipSpace_cons (show isSpace '"' = false from rfl), hitems]
    rfl

/-! ## The text of an array -/

theorem feed_notMem_escape (c : Char) : '\n' ∉ escape c := by
  have hdigit : ∀ k < 16, '\n' ≠ Nat.digitChar k := by decide
  have hfour : ∀ n, '\n' ∉ Hex.four n := by
    intro n hn
    simp only [Hex.four, Hex.digit, List.mem_cons, List.not_mem_nil, or_false] at hn
    rcases hn with hn | hn | hn | hn <;> exact hdigit _ (Nat.mod_lt _ (by decide)) hn
  unfold escape
  split
  · decide
  · split
    · decide
    · split
      · decide
      · next hfeed => grind

/-- An array is written on one line. -/
theorem feed_notMem_array (items : List Text) : '\n' ∉ array items := by
  have hquoted : ∀ t : Text, '\n' ∉ quoted t := by
    intro t hmem
    simp only [quoted, List.cons_append, List.mem_cons, List.mem_append, List.not_mem_nil,
      or_false] at hmem
    rcases hmem with hmem | hmem | hmem
    · cases hmem
    · obtain ⟨c, -, hc⟩ := List.mem_flatMap.1 hmem
      exact feed_notMem_escape c hc
    · cases hmem
  intro hmem
  simp only [array, List.cons_append, List.mem_cons, List.mem_append, List.not_mem_nil, or_false] at hmem
  rcases hmem with hmem | hmem | hmem
  · cases hmem
  · rcases Text.mem_join hmem with hmem | ⟨t, ht, hmem⟩
    · rw [List.mem_singleton] at hmem
      cases hmem
    · obtain ⟨item, -, rfl⟩ := List.mem_map.1 ht
      exact hquoted item hmem
  · cases hmem

theorem isTrimmed_array (items : List Text) : Text.IsTrimmed (array items) where
  first c hc := by
    cases hc
    rfl
  last c hc := by
    rw [array, List.getLast?_concat] at hc
    cases hc
    rfl

end BuildScript.Json
