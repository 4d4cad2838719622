/-!
# Chunks

A list cut into chunks of one size, the last of which may be shorter. Nothing is lost
(`flatten_chunks`), no chunk is empty or too long (`length_le_of_mem_chunks`), and only the last one may be
shorter than the others (`length_of_mem_dropLast_chunks`).
-/

namespace BuildScript

/-- Cuts a list into chunks of `size + 1` elements; the last chunk may be shorter. -/
def chunks {α : Type} (size : Nat) (xs : List α) : List (List α) :=
  match xs with
  | [] => []
  | x :: rest => (x :: rest.take size) :: chunks size (rest.drop size)
termination_by xs.length
decreasing_by simp only [List.length_drop, List.length_cons]; omega

theorem flatten_chunks {α : Type} (size : Nat) (xs : List α) : (chunks size xs).flatten = xs := by
  fun_induction chunks size xs with
  | case1 => rfl
  | case2 x rest ih => simp [ih]

theorem length_le_of_mem_chunks {α : Type} {size : Nat} {xs chunk : List α}
    (h : chunk ∈ chunks size xs) : chunk ≠ [] ∧ chunk.length ≤ size + 1 := by
  fun_induction chunks size xs with
  | case1 => simp at h
  | case2 x rest ih =>
    rcases List.mem_cons.1 h with rfl | h
    · simp only [ne_eq, reduceCtorEq, not_false_eq_true, List.length_cons, List.length_take,
        true_and]
      omega
    · exact ih h

theorem chunks_ne_nil {α : Type} {size : Nat} {xs : List α} (h : xs ≠ []) : chunks size xs ≠ [] := by
  obtain ⟨x, rest, rfl⟩ := List.exists_cons_of_ne_nil h
  rw [chunks]
  exact List.cons_ne_nil _ _

/-- All chunks but the last one are full. -/
theorem length_of_mem_dropLast_chunks {α : Type} {size : Nat} {xs chunk : List α}
    (h : chunk ∈ (chunks size xs).dropLast) : chunk.length = size + 1 := by
  fun_induction chunks size xs with
  | case1 => cases h
  | case2 x rest ih =>
    by_cases hrest : rest.drop size = []
    · rw [hrest, chunks] at h
      cases h
    · have hlong : size < rest.length := by simpa using hrest
      rw [List.dropLast_cons_of_ne_nil (chunks_ne_nil hrest)] at h
      rcases List.mem_cons.1 h with rfl | h
      · rw [List.length_cons, List.length_take, Nat.min_eq_left (Nat.le_of_lt hlong)]
      · exact ih h

end BuildScript
