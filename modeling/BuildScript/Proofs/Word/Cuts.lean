import BuildScript.Word.Basic

/-!
# Cutting words

A word is cut at a character only if the character stands before all references (`cutAt_eq_some_iff`,
`cutAt_eq_none_iff`).
-/

namespace BuildScript.Word

variable {sep : Char} {w after : Word} {before : Text}

theorem cutAt_eq_some_iff :
    w.cutAt sep = some (before, after) ↔ sep ∉ before ∧ w = literal before ++ .char sep after := by
  induction w generalizing before with
  | nil => cases before <;> simp [cutAt, literal]
  | var name rest => cases before <;> simp [cutAt, literal]
  | cond name choice arg rest => cases before <;> simp [cutAt, literal]
  | char c rest ih =>
    rw [cutAt]
    by_cases hc : c = sep
    · subst hc
      rw [if_pos rfl]
      cases before with
      | nil => simp [literal, eq_comm]
      | cons d before =>
        refine iff_of_false (by simp) ?_
        rintro ⟨hsep, heq⟩
        exact hsep (List.mem_cons.2 (.inl (Word.char.inj heq).1))
    · rw [if_neg hc, Option.map_eq_some_iff]
      constructor
      · rintro ⟨⟨first, others⟩, hcut, heq⟩
        cases heq
        obtain ⟨hsep, rfl⟩ := ih.1 hcut
        exact ⟨List.not_mem_cons_of_ne_of_not_mem (Ne.symm hc) hsep, rfl⟩
      · rintro ⟨hsep, heq⟩
        cases before with
        | nil =>
          cases heq
          exact absurd rfl hc
        | cons d before =>
          cases heq
          exact ⟨(before, after), ih.2 ⟨List.not_mem_of_not_mem_cons hsep, rfl⟩, rfl⟩

theorem leading_literal (t : Text) : (literal t).leading = t := by
  induction t with
  | nil => rfl
  | cons c rest ih => exact congrArg (c :: ·) ih

theorem cutAt_eq_none_iff : w.cutAt sep = none ↔ sep ∉ w.leading := by
  induction w with
  | char c rest ih =>
    rw [cutAt, leading, List.mem_cons, not_or, ← ih]
    by_cases hc : c = sep
    · simp [hc]
    · simp [hc, Ne.symm hc]
  | _ => simp [cutAt, leading]

end BuildScript.Word
