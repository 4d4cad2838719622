import BuildScript.Compile.Delivery
import BuildScript.Proofs.Path.Parent

/-!
# Ends of words

What a word ends in is told by the characters after its last reference. A word that is put in front of it
makes no difference to them unless there is no reference (`trailingFrom_literal_append`), and text that is put
behind it is added to them (`trailing_append_literal`).
-/

namespace BuildScript.Word

theorem trailingFrom_literal_append (seen t : Text) (w : Word) :
    trailingFrom seen (literal t ++ w) = trailingFrom (t.reverse ++ seen) w := by
  induction t generalizing seen with
  | nil => rfl
  | cons c rest ih =>
    rw [literal, char_append, trailingFrom, ih]
    simp

theorem trailing_literal (t : Text) : (literal t).trailing = t := by
  have hfrom := trailingFrom_literal_append [] t .nil
  rw [append_nil] at hfrom
  rw [trailing, hfrom, trailingFrom, List.append_nil, List.reverse_reverse]

theorem trailing_append_literal (w : Word) (t : Text) : (w ++ literal t).trailing = w.trailing ++ t := by
  have hfrom : ∀ seen, trailingFrom seen (w ++ literal t) = trailingFrom seen w ++ t := by
    induction w with
    | nil =>
      intro seen
      have hliteral := trailingFrom_literal_append seen t .nil
      rw [append_nil] at hliteral
      rw [nil_append, hliteral, trailingFrom, trailingFrom]
      simp
    | char c rest ih => exact fun seen => ih (c :: seen)
    | var name rest ih => exact fun _ => ih []
    | cond name choice arg rest _ ih => exact fun _ => ih []
  exact hfrom []

/-! ## Slashes -/

theorem endsWith_slash_eq (w : Word) : w.endsWith ['/'] = Path.endsInSlash w.trailing := by
  rcases List.eq_nil_or_concat' w.trailing with hnil | ⟨front, last, hlast⟩
  · rw [endsWith, hnil]
    rfl
  · rw [endsWith, hlast, Path.endsInSlash, List.getLast?_concat, Bool.eq_iff_iff, Bool.and_eq_true,
      List.isSuffixOf_iff_suffix, beq_iff_eq, Option.some_inj]
    constructor
    · rintro ⟨-, before, hbefore⟩
      exact (List.singleton_inj.1 (List.append_inj' hbefore rfl).2).symm
    · rintro rfl
      exact ⟨by simp, List.suffix_append front ['/']⟩

theorem endsWith_slash_literal (t : Text) : (literal t).endsWith ['/'] = Path.endsInSlash t := by
  rw [endsWith_slash_eq, trailing_literal]

theorem endsWith_withSlash (w : Word) : w.withSlash.endsWith ['/'] = true := by
  unfold withSlash
  split
  · assumption
  · rw [endsWith_slash_eq, trailing_append_literal, Path.endsInSlash_append_slash]

theorem withSlash_withSlash (w : Word) : w.withSlash.withSlash = w.withSlash := by
  rw [withSlash, if_pos (endsWith_withSlash w)]

theorem withSlash_literal (t : Text) : (literal t).withSlash = literal (Path.slashed t) := by
  rw [withSlash, endsWith_slash_literal, Path.slashed]
  split
  · rfl
  · rw [literal_append]

theorem text?_append_literal (w : Word) (t : Text) : (w ++ literal t).text? = w.text?.map (· ++ t) := by
  induction w with
  | nil => rw [nil_append, text?_literal, text?, Option.map_some, List.nil_append]
  | char c rest ih =>
    rw [char_append, text?, ih, text?, Option.map_map, Option.map_map]
    rfl
  | var name rest => rfl
  | cond name choice arg rest => rfl

/-- A slash at the end leaves the references of a path. -/
theorem text?_withSlash (w : Word) : w.withSlash.text? = w.text?.map Path.slashed := by
  cases htext : w.text? with
  | some t =>
    rw [eq_literal_of_text? htext, withSlash_literal, text?_literal]
    rfl
  | none =>
    unfold withSlash
    split
    · exact htext
    · rw [text?_append_literal, htext]
      rfl

end BuildScript.Word
