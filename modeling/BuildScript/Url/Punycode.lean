import BuildScript.Text.Basic

/-!
# Punycode

A text of any characters as one of letters, digits and hyphens. The ASCII characters come first, in their
order; the others follow as numbers, which tell for each, from the smallest code point to the largest,
how many steps a walk over the possible insertions takes to reach it. The numbers have a variable length
to base 36, with thresholds that adapt to the numbers met before.
-/

namespace BuildScript.Punycode

/-- The digit of a value below 36. -/
def digit (n : Nat) : Char :=
  if n < 26 then Char.ofNat ('a'.toNat + n) else Char.ofNat ('0'.toNat + (n - 26))

/-- The value of a digit; letters may be small or capital. -/
def value? (c : Char) : Option Nat :=
  if 'a' ≤ c ∧ c ≤ 'z' then some (c.toNat - 'a'.toNat)
  else if 'A' ≤ c ∧ c ≤ 'Z' then some (c.toNat - 'A'.toNat)
  else if '0' ≤ c ∧ c ≤ '9' then some (c.toNat - '0'.toNat + 26)
  else none

/-- The threshold of the digit at position `k` (36, 72, …): smaller digits end a number. -/
def threshold (bias k : Nat) : Nat := max 1 (min 26 (k - bias))

/-- Divides by 35 until at most 455 is left; `k` counts 36 for each division. -/
def shrink (delta k : Nat) : Nat × Nat :=
  if 455 < delta then shrink (delta / 35) (k + 36) else (delta, k)
termination_by delta
decreasing_by omega

/-- The bias after a number: `count` characters are placed by then. -/
def adapt (delta count : Nat) (isFirst : Bool) : Nat :=
  let damped := if isFirst then delta / 700 else delta / 2
  let (rest, k) := shrink (damped + damped / count) 0
  k + 36 * rest / (rest + 38)

/-- A number in digits of variable length. -/
def digits (bias k n : Nat) : Text :=
  let t := threshold bias k
  if n < t then [digit n]
  else digit (t + (n - t) % (36 - t)) :: digits bias (k + 36) ((n - t) / (36 - t))
termination_by n
decreasing_by
  have h1 : 1 ≤ threshold bias k := Nat.le_max_left ..
  exact Nat.lt_of_le_of_lt (Nat.div_le_self ..) (by omega)

/-- How far the walk over the insertions has come. -/
structure Walk where
  written : Text
  /-- Steps since the last character that was placed. -/
  steps : Nat
  bias : Nat
  /-- Characters placed so far. -/
  placed : Nat

/-- Passes a character of the text while those with code point `m` are placed. -/
def Walk.pass (isFirst : Nat → Bool) (m : Nat) (w : Walk) (c : Char) : Walk :=
  if c.toNat < m then { w with steps := w.steps + 1 }
  else if c.toNat = m then
    { written := w.written ++ digits w.bias 36 w.steps
      steps := 0
      bias := adapt w.steps (w.placed + 1) (isFirst w.placed)
      placed := w.placed + 1 }
  else w

/-- Places the characters with the given code points, which are in ascending order and not below `n`. -/
def Walk.place (isFirst : Nat → Bool) (t : Text) : Nat → List Nat → Walk → Walk
  | _, [], w => w
  | n, m :: rest, w =>
    let started := { w with steps := w.steps + (m - n) * (w.placed + 1) }
    let passed := t.foldl (Walk.pass isFirst m) started
    place isFirst t (m + 1) rest { passed with steps := passed.steps + 1 }

/-- The Punycode form of a text. -/
def encode (t : Text) : Text :=
  let basic := t.filter (·.toNat < 128)
  let others := ((t.filter (128 ≤ ·.toNat)).map Char.toNat).mergeSort.eraseDups
  let start := if basic = [] then [] else basic ++ ['-']
  let walk := Walk.place (· == basic.length) t 128 others ⟨start, 0, 72, basic.length⟩
  walk.written

/-- Reads a number in digits of variable length. The answer holds what follows. -/
def number? (bias k weight sum : Nat) : Text → Option (Nat × Text)
  | [] => none
  | c :: rest => do
    let v ← value? c
    let t := threshold bias k
    let sum := sum + v * weight
    if v < t then pure (sum, rest) else number? bias (k + 36) (weight * (36 - t)) sum rest

theorem number?_length {bias k weight sum n : Nat} {t rest : Text}
    (h : number? bias k weight sum t = some (n, rest)) : rest.length < t.length := by
  induction t generalizing k weight sum with
  | nil => cases h
  | cons c after ih =>
    unfold number? at h
    simp only [Option.bind_eq_bind, Option.bind_eq_some_iff] at h
    obtain ⟨v, -, h⟩ := h
    split at h
    · cases h; simp
    · have := ih h
      simp only [List.length_cons]
      omega

/-- Inserts the characters that the numbers tell into those placed so far. The last one was inserted
before `position` and had the code point `code`. -/
def insertAll (placed : Text) (code position bias : Nat) (t : Text) : Option Text :=
  match t with
  | [] => some placed
  | c :: rest =>
    match h : number? bias 36 1 0 (c :: rest) with
    | none => none
    | some (steps, after) =>
      have := number?_length h
      let count := placed.length + 1
      let total := position + steps
      let isFirst := position == 0
      let code := code + total / count
      let position := total % count
      if code < 0xD800 ∨ 0xE000 ≤ code ∧ code < 0x110000 then
        insertAll (placed.take position ++ Char.ofNat code :: placed.drop position) code
          (position + 1) (adapt steps count isFirst) after
      else none
termination_by t.length
decreasing_by simpa only [List.length_cons] using this

/-- The text that a Punycode form stands for. -/
def decode? (t : Text) : Option Text :=
  let numbers := (t.reverse.takeWhile (· ≠ '-')).reverse
  let basic := (t.reverse.dropWhile (· ≠ '-')).tail.reverse
  insertAll basic 128 0 72 numbers

example : encode "bücher".toList = "bcher-kva".toList := by decide +kernel

example : decode? "bcher-kva".toList = some "bücher".toList := by decide +kernel

end BuildScript.Punycode
