import BuildScript.Bytes.Base64

/-!
# Bits

Bytes as a stream of bits, each byte from its lowest bit on. Numbers stand in the stream from the lowest
bit on (`ofNat`), codes from the highest bit on (`ofCode`).
-/

namespace BuildScript.Bits

/-- The lowest `count` bits of a number, the lowest first. -/
def ofNat : (count n : Nat) → List Bool
  | 0, _ => []
  | count + 1, n => (n % 2 == 1) :: ofNat count (n / 2)

/-- The lowest `count` bits of a code, the highest first. -/
def ofCode (count n : Nat) : List Bool := (ofNat count n).reverse

/-- The number that bits stand for, the lowest first. -/
def toNat : List Bool → Nat
  | [] => 0
  | b :: rest => b.toNat + 2 * toNat rest

/-- The bits of bytes. -/
def ofBytes (bytes : Bytes) : List Bool := bytes.flatMap fun b => ofNat 8 b.toNat

/-- The bytes that bits fill; the last one is filled up with zeros. -/
def toBytes (bits : List Bool) : Bytes :=
  match bits with
  | [] => []
  | b :: rest => UInt8.ofNat (toNat (b :: rest.take 7)) :: toBytes (rest.drop 7)
termination_by bits.length
decreasing_by simp only [List.length_drop, List.length_cons]; omega

/-- Reads a number of `count` bits, the lowest first. -/
def number? (count : Nat) (bits : List Bool) : Option (Nat × List Bool) :=
  if count ≤ bits.length then some (toNat (bits.take count), bits.drop count) else none

theorem length_ofNat (count n : Nat) : (ofNat count n).length = count := by
  induction count generalizing n with
  | zero => rfl
  | succ count ih => simp [ofNat, ih]

theorem toNat_ofNat (count n : Nat) : toNat (ofNat count n) = n % Nat.pow 2 count := by
  induction count generalizing n with
  | zero => simp [ofNat, toNat, Nat.mod_one]
  | succ count ih =>
    have h : (n % 2 == 1).toNat = n % 2 := by
      rcases Nat.mod_two_eq_zero_or_one n with h | h <;> simp [h]
    have hpow : Nat.pow 2 (count + 1) = 2 * Nat.pow 2 count := Nat.mul_comm _ _
    rw [ofNat, toNat, ih, h, hpow, Nat.mod_mul]

theorem number?_length {count n : Nat} {bits rest : List Bool}
    (h : number? count bits = some (n, rest)) : rest.length + count = bits.length := by
  unfold number? at h
  split at h
  · cases h
    simp only [List.length_drop]
    omega
  · cases h

end BuildScript.Bits
