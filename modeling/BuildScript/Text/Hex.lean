import BuildScript.Text.Basic

/-!
# Hexadecimal digits

The value of a digit and the digit of a value, for the formats that write numbers to base sixteen.
-/

namespace BuildScript.Hex

/-- The value of a hexadecimal digit, in either case. -/
def value? (c : Char) : Option Nat :=
  if '0' ≤ c ∧ c ≤ '9' then some (c.toNat - '0'.toNat)
  else if 'a' ≤ c ∧ c ≤ 'f' then some (c.toNat - 'a'.toNat + 10)
  else if 'A' ≤ c ∧ c ≤ 'F' then some (c.toNat - 'A'.toNat + 10)
  else none

/-- The small digit of a value below sixteen. -/
def digit (n : Nat) : Char := Nat.digitChar (n % 16)

/-- The capital digit of a value below sixteen. -/
def capital (n : Nat) : Char := (digit n).toUpper

theorem value?_digit (n : Nat) : value? (digit n) = some (n % 16) := by
  have h : ∀ k < 16, value? (Nat.digitChar k) = some k := by decide
  exact h (n % 16) (Nat.mod_lt _ (by decide))

/-- The number that digits write. -/
def number? (t : Text) : Option Nat :=
  t.foldlM (fun n c => (value? c).map (n * 16 + ·)) 0

/-- A number read from exactly four digits, with what follows them. -/
def four? : Text → Option (Nat × Text)
  | a :: b :: c :: d :: rest => do
    let a ← value? a
    let b ← value? b
    let c ← value? c
    let d ← value? d
    pure (((a * 16 + b) * 16 + c) * 16 + d, rest)
  | _ => none

/-- A number below 65536 as exactly four small digits. -/
def four (n : Nat) : Text :=
  [digit (n / 4096), digit (n / 256), digit (n / 16), digit n]

theorem four?_four {n : Nat} (h : n < 65536) (rest : Text) :
    four? (four n ++ rest) = some (n, rest) := by
  simp only [four, four?, List.cons_append, List.nil_append, value?_digit, Option.bind_eq_bind,
    Option.bind_some, Option.pure_def, Option.some.injEq, Prod.mk.injEq, and_true]
  omega

theorem four?_length {t rest : Text} {n : Nat} (h : four? t = some (n, rest)) :
    rest.length < t.length := by
  unfold four? at h
  split at h
  · simp only [Option.bind_eq_bind, Option.bind_eq_some_iff, Option.pure_def, Option.some.injEq,
      Prod.mk.injEq] at h
    obtain ⟨_, _, _, _, _, _, _, _, _, rfl⟩ := h
    simp
    omega
  · cases h

end BuildScript.Hex
