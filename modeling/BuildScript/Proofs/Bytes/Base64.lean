import BuildScript.Bytes.Base64

/-!
# Base 64 is read back

What is written for bytes is read as these bytes (`decode?_encode`), and it is made of letters of the alphabet and
of `=` (`mem_encode`).
-/

namespace BuildScript.Base64

/-- The characters of base 64 text. -/
def IsDigit (c : Char) : Prop := c = '=' ∨ ∃ n, value? c = some n

theorem letter_ne_filler {n : Nat} (h : n < 64) : letter n ≠ '=' := by
  intro heq
  have hvalue := value?_letter h
  rw [heq] at hvalue
  cases hvalue

theorem isDigit_letter {n : Nat} (h : n < 64) : IsDigit (letter n) := .inr ⟨n, value?_letter h⟩

theorem mem_encode {bytes : Bytes} {c : Char} (h : c ∈ encode bytes) : IsDigit c := by
  induction bytes using encode.induct with
  | case1 => cases h
  | case2 a =>
    have ha := a.toNat_lt
    simp only [encode, List.mem_cons, List.not_mem_nil, or_false] at h
    rcases h with rfl | rfl | rfl | rfl
    · exact isDigit_letter (by omega)
    · exact isDigit_letter (by omega)
    · exact .inl rfl
    · exact .inl rfl
  | case3 a b =>
    have ha := a.toNat_lt
    have hb := b.toNat_lt
    simp only [encode, List.mem_cons, List.not_mem_nil, or_false] at h
    rcases h with rfl | rfl | rfl | rfl
    · exact isDigit_letter (by omega)
    · exact isDigit_letter (by omega)
    · exact isDigit_letter (by omega)
    · exact .inl rfl
  | case4 a b c rest ih =>
    have ha := a.toNat_lt
    have hb := b.toNat_lt
    have hc := c.toNat_lt
    simp only [encode, List.mem_cons] at h
    rcases h with rfl | rfl | rfl | rfl | h
    · exact isDigit_letter (by omega)
    · exact isDigit_letter (by omega)
    · exact isDigit_letter (by omega)
    · exact isDigit_letter (by omega)
    · exact ih h

theorem encode_ne_nil {bytes : Bytes} (h : bytes ≠ []) : encode bytes ≠ [] := by
  cases bytes using encode.induct with
  | case1 => exact absurd rfl h
  | case2 a => simp [encode]
  | case3 a b => simp [encode]
  | case4 a b c rest => simp [encode]

/-- A byte is put together again from a number that is equal to it. -/
theorem ofNat_eq {n : Nat} {b : UInt8} (h : n = b.toNat) : UInt8.ofNat n = b := by
  rw [h, UInt8.ofNat_toNat]

/-- Text of base 64 stands for the bytes that it was written for. -/
theorem decode?_encode (bytes : Bytes) : decode? (encode bytes) = some bytes := by
  induction bytes using encode.induct with
  | case1 => rfl
  | case2 a =>
    have ha := a.toNat_lt
    have hfirst : UInt8.ofNat (a.toNat / 4 * 4 + a.toNat % 4 * 16 / 16) = a := ofNat_eq (by omega)
    have hrest : a.toNat % 4 * 16 % 16 = 0 := by omega
    rw [encode, decode?, value?_letter (by omega), value?_letter (by omega), Option.bind_eq_bind,
      Option.bind_some, Option.bind_eq_bind, Option.bind_some, if_pos rfl, if_pos ⟨rfl, rfl, hrest⟩, hfirst]
    rfl
  | case3 a b =>
    have ha := a.toNat_lt
    have hb := b.toNat_lt
    have hfirst : UInt8.ofNat (a.toNat / 4 * 4 + (a.toNat % 4 * 16 + b.toNat / 16) / 16) = a :=
      ofNat_eq (by omega)
    have hsecond : UInt8.ofNat ((a.toNat % 4 * 16 + b.toNat / 16) % 16 * 16 + b.toNat % 16 * 4 / 4) = b :=
      ofNat_eq (by omega)
    have hrest : b.toNat % 16 * 4 % 4 = 0 := by omega
    have hthird : letter (b.toNat % 16 * 4) ≠ '=' := letter_ne_filler (by omega)
    simp only [encode, decode?, value?_letter (n := a.toNat / 4) (by omega),
      value?_letter (n := a.toNat % 4 * 16 + b.toNat / 16) (by omega),
      value?_letter (n := b.toNat % 16 * 4) (by omega), hthird, hrest, hfirst, hsecond,
      Option.bind_eq_bind, Option.bind_some, Option.pure_def, if_true, if_false, and_self]
  | case4 a b c rest ih =>
    have ha := a.toNat_lt
    have hb := b.toNat_lt
    have hc := c.toNat_lt
    have hfirst : UInt8.ofNat (a.toNat / 4 * 4 + (a.toNat % 4 * 16 + b.toNat / 16) / 16) = a :=
      ofNat_eq (by omega)
    have hsecond : UInt8.ofNat
        ((a.toNat % 4 * 16 + b.toNat / 16) % 16 * 16 + (b.toNat % 16 * 4 + c.toNat / 64) / 4) = b :=
      ofNat_eq (by omega)
    have hthird : UInt8.ofNat ((b.toNat % 16 * 4 + c.toNat / 64) % 4 * 64 + c.toNat % 64) = c :=
      ofNat_eq (by omega)
    have hnext : letter (b.toNat % 16 * 4 + c.toNat / 64) ≠ '=' := letter_ne_filler (by omega)
    have hlast : letter (c.toNat % 64) ≠ '=' := letter_ne_filler (by omega)
    simp only [encode, decode?, value?_letter (n := a.toNat / 4) (by omega),
      value?_letter (n := a.toNat % 4 * 16 + b.toNat / 16) (by omega),
      value?_letter (n := b.toNat % 16 * 4 + c.toNat / 64) (by omega),
      value?_letter (n := c.toNat % 64) (by omega), hnext, hlast, ih, hfirst, hsecond, hthird,
      Option.bind_eq_bind, Option.bind_some, Option.pure_def, if_false]

end BuildScript.Base64
