import BuildScript.Text.Basic

/-!
# Base 64

Three bytes are written as four characters of a 64-letter alphabet; a last group of one or two bytes is
filled up with `=`. Reading takes exactly what writing can produce.
-/

namespace BuildScript

/-- A byte string. -/
abbrev Bytes := List UInt8

namespace Base64

/-- The letters, each at the place of its value. -/
def alphabet : Text :=
  "ABCDEFGHIJKLMNOPQRSTUVWXYZabcdefghijklmnopqrstuvwxyz0123456789+/".toList

/-- The letter of a value below 64. -/
def letter (n : Nat) : Char :=
  if n < 26 then Char.ofNat (65 + n)
  else if n < 52 then Char.ofNat (97 + (n - 26))
  else if n < 62 then Char.ofNat (48 + (n - 52))
  else if n = 62 then '+'
  else '/'

example : (List.range 64).map letter = alphabet := by decide

/-- The value of a letter. -/
def value? (c : Char) : Option Nat :=
  if 'A' ≤ c ∧ c ≤ 'Z' then some (c.toNat - 65)
  else if 'a' ≤ c ∧ c ≤ 'z' then some (c.toNat - 97 + 26)
  else if '0' ≤ c ∧ c ≤ '9' then some (c.toNat - 48 + 52)
  else if c = '+' then some 62
  else if c = '/' then some 63
  else none

theorem value?_letter {n : Nat} (h : n < 64) : value? (letter n) = some n := by
  have : ∀ k < 64, value? (letter k) = some k := by decide
  exact this n h

/-- Bytes as text, four characters for three bytes. -/
def encode : Bytes → Text
  | [] => []
  | [a] => [letter (a.toNat / 4), letter (a.toNat % 4 * 16), '=', '=']
  | [a, b] =>
    [letter (a.toNat / 4), letter (a.toNat % 4 * 16 + b.toNat / 16), letter (b.toNat % 16 * 4), '=']
  | a :: b :: c :: rest =>
    letter (a.toNat / 4) :: letter (a.toNat % 4 * 16 + b.toNat / 16) ::
      letter (b.toNat % 16 * 4 + c.toNat / 64) :: letter (c.toNat % 64) :: encode rest

/-- The bytes of a text, if it is one that `encode` writes. -/
def decode? : Text → Option Bytes
  | [] => some []
  | w :: x :: y :: z :: rest => do
    let a ← value? w
    let b ← value? x
    if y = '=' then
      if z = '=' ∧ rest = [] ∧ b % 16 = 0 then pure [UInt8.ofNat (a * 4 + b / 16)] else none
    else
      let c ← value? y
      if z = '=' then
        if rest = [] ∧ c % 4 = 0 then
          pure [UInt8.ofNat (a * 4 + b / 16), UInt8.ofNat (b % 16 * 16 + c / 4)]
        else none
      else
        let d ← value? z
        let others ← decode? rest
        pure (UInt8.ofNat (a * 4 + b / 16) :: UInt8.ofNat (b % 16 * 16 + c / 4) ::
          UInt8.ofNat (c % 4 * 64 + d) :: others)
  | _ => none

end Base64

end BuildScript
