import Mathlib.Data.List.Basic
import BuildScript.Bytes.Deflate.Token

/-!
# Repetitions are written out again

A token repeats bytes that were compared with those it stands for, so writing the tokens of bytes out gives the
bytes (`expand?_tokens`). All tokens that are found have lengths and distances that a code for them has to
cover and no others (`fits_of_mem_tokens`).
-/

namespace BuildScript.Deflate

/-- Whether length and distance of a token are in the ranges of the format. -/
def Token.Fits : Token → Prop
  | .byte _ => True
  | .copy length distance => 3 ≤ length ∧ length ≤ longestStretch ∧ 1 ≤ distance ∧ distance ≤ window

/-! ## One repetition -/

theorem commonLength_le (limit : Nat) (s t : Bytes) : commonLength limit s t ≤ limit := by
  induction limit generalizing s t with
  | zero => simp [commonLength]
  | succ limit ih =>
    unfold commonLength
    split
    · next heq =>
      cases heq
      split
      · exact Nat.succ_le_succ (ih _ _)
      · exact Nat.zero_le _
    · exact Nat.zero_le _

/-- Two byte strings agree as far as what they have in common. -/
theorem take_commonLength (limit : Nat) (s t : Bytes) :
    commonLength limit s t ≤ t.length ∧ s.take (commonLength limit s t) = t.take (commonLength limit s t) := by
  induction limit generalizing s t with
  | zero => simp [commonLength]
  | succ limit ih =>
    unfold commonLength
    split
    · next a s b t heq =>
      cases heq
      split
      · next hab =>
        obtain ⟨hlength, htake⟩ := ih s t
        refine ⟨Nat.succ_le_succ hlength, ?_⟩
        rw [List.take_succ_cons, List.take_succ_cons, hab, htake]
      · simp
    · simp

/-- Bytes that go on as those before them did are repeated from there. The stretch that is repeated may be shorter
than what is written: `back` moves on with each byte, so that written bytes are repeated in turn. -/
theorem repeatBytes?_eq {length : Nat} {back rest : Bytes} (hback : back ≠ []) (hlength : length ≤ rest.length)
    (htake : (back.reverse ++ rest).take length = rest.take length) (older : Bytes) :
    repeatBytes? back.length length (back ++ older) = some ((rest.take length).reverse ++ (back ++ older)) := by
  induction length generalizing back rest older with
  | zero => rfl
  | succ length ih =>
    obtain ⟨front, oldest, rfl⟩ := List.eq_nil_or_concat' back |>.resolve_left hback
    cases rest with
    | nil => simp at hlength
    | cons next rest =>
      -- The oldest byte of the stretch is the next one to be written.
      rw [List.reverse_append, List.reverse_singleton, List.singleton_append, List.cons_append,
        List.take_succ_cons, List.take_succ_cons, List.cons.injEq] at htake
      obtain ⟨rfl, htake⟩ := htake
      have hoffset : (front ++ [oldest]).length - 1 = front.length := by simp
      have hread : (front ++ [oldest] ++ older)[front.length]? = some oldest := by simp
      have hmoved := ih (List.cons_ne_nil oldest front) (Nat.le_of_succ_le_succ hlength)
        (by rwa [List.reverse_cons, List.append_assoc, List.singleton_append]) (oldest :: older)
      have hstretch : oldest :: (front ++ [oldest] ++ older) = oldest :: front ++ oldest :: older := by simp
      have hsize : (front ++ [oldest]).length = (oldest :: front).length := by simp
      rw [repeatBytes?, hoffset, hread]
      simp only
      rw [hstretch, hsize, hmoved]
      simp

/-! ## The longest repetition -/

/-- What is told of the longest repetition can be repeated. `back` is what begins `distance` bytes before `rest`,
and the bytes in `seen` stand before it. -/
theorem longestRepeat_spec (rest back seen : Bytes) {length distance : Nat}
    (h : longestRepeat rest back.length (back.reverse ++ rest) seen = (length, distance))
    (hlength : length ≠ 0) :
    length ≤ longestStretch ∧ length ≤ rest.length ∧ 1 ≤ distance ∧ distance ≤ back.length + seen.length ∧
      ∀ older, repeatBytes? distance length (back ++ (seen ++ older)) =
        some ((rest.take length).reverse ++ (back ++ (seen ++ older))) := by
  induction seen generalizing back length distance with
  | nil =>
    rw [longestRepeat] at h
    cases h
    exact absurd rfl hlength
  | cons b seen ih =>
    have hsource : b :: (back.reverse ++ rest) = (back ++ [b]).reverse ++ rest := by simp
    have hsize : back.length + 1 = (back ++ [b]).length := by simp
    simp only [longestRepeat] at h
    rw [hsource, hsize] at h
    have hassoc : ∀ older, back ++ (b :: seen ++ older) = back ++ [b] ++ (seen ++ older) := by simp
    split at h
    · cases h
      obtain ⟨hrest, htake⟩ := take_commonLength longestStretch ((back ++ [b]).reverse ++ rest) rest
      refine ⟨commonLength_le _ _ _, hrest, by simp, by simp, fun older => ?_⟩
      rw [hassoc]
      exact repeatBytes?_eq (by simp) hrest htake (seen ++ older)
    · obtain ⟨hstretch, hrest, hpos, hdistance, hrepeat⟩ := ih (back ++ [b]) h hlength
      refine ⟨hstretch, hrest, hpos, ?_, fun older => ?_⟩
      · simp only [List.length_append, List.length_cons, List.length_nil] at hdistance ⊢
        omega
      · rw [hassoc, hrepeat]

/-- The longest repetition of the bytes before `rest`, as far as they are looked at. -/
theorem longestRepeat_window {rest seen : Bytes} {length distance : Nat}
    (h : longestRepeat rest 0 rest (seen.take window) = (length, distance)) (hlength : length ≠ 0) :
    length ≤ longestStretch ∧ 1 ≤ distance ∧ distance ≤ window ∧
      repeatBytes? distance length seen = some ((rest.take length).reverse ++ seen) := by
  obtain ⟨hstretch, -, hpos, hdistance, hrepeat⟩ := longestRepeat_spec rest [] (seen.take window) h hlength
  have hseen := hrepeat (seen.drop window)
  rw [List.nil_append, List.take_append_drop] at hseen
  refine ⟨hstretch, hpos, ?_, hseen⟩
  have hwindow : (seen.take window).length ≤ window := List.length_take_le _ _
  simp only [List.length_nil] at hdistance
  omega

/-! ## All tokens -/

theorem fits_of_mem_tokensFrom {seen rest : Bytes} {t : Token} (h : t ∈ tokensFrom seen rest) : t.Fits := by
  fun_induction tokensFrom seen rest with
  | case1 => cases h
  | case2 seen b after length distance hlong hrepeat ih =>
    simp only [hrepeat, if_pos hlong, List.mem_cons] at h
    rcases h with rfl | h
    · obtain ⟨hstretch, hpos, hwindow, -⟩ := longestRepeat_window hrepeat (by omega)
      exact ⟨hlong, hstretch, hpos, hwindow⟩
    · exact ih h
  | case3 seen b after length distance hshort hrepeat ih =>
    simp only [hrepeat, if_neg hshort, List.mem_cons] at h
    rcases h with rfl | h
    · trivial
    · exact ih h

theorem fits_of_mem_tokens {bytes : Bytes} {t : Token} (h : t ∈ tokens bytes) : t.Fits :=
  fits_of_mem_tokensFrom h

theorem expandFrom?_tokensFrom (seen rest : Bytes) :
    expandFrom? seen (tokensFrom seen rest) = some (rest.reverse ++ seen) := by
  fun_induction tokensFrom seen rest with
  | case1 => rfl
  | case2 seen b after length distance hlong hrepeat ih =>
    obtain ⟨-, -, -, hbytes⟩ := longestRepeat_window hrepeat (by omega)
    have hrest : (b :: after).drop length = after.drop (length - 1) := by
      obtain ⟨less, rfl⟩ : ∃ less, length = less + 1 := ⟨length - 1, by omega⟩
      rfl
    simp only [hrepeat, if_pos hlong]
    rw [expandFrom?, hbytes, Option.bind_some, ih, ← hrest, ← List.append_assoc, ← List.reverse_append,
      List.take_append_drop]
  | case3 seen b after length distance hshort hrepeat ih =>
    simp only [hrepeat, if_neg hshort]
    rw [expandFrom?, ih]
    simp

/-- Tokens of bytes are written out as the bytes. -/
theorem expand?_tokens (bytes : Bytes) : expand? (tokens bytes) = some bytes := by
  rw [expand?, tokens, expandFrom?_tokensFrom]
  simp

end BuildScript.Deflate
