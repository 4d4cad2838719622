import BuildScript.Text.Hex

/-!
# IPv6 addresses

An address is eight groups of up to four hexadecimal digits between colons. Two colons side by side stand
for the groups of zeros that are left out, at least one; the last two groups may be written as four
decimal numbers between dots. Rendering leaves out the longest stretch of two or more zeros.
-/

namespace BuildScript.Ipv6

/-- The value of a group of one to four digits. -/
def group? (t : Text) : Option Nat :=
  if t = [] ∨ 4 < t.length then none
  else
    t.foldl (fun sum c => do
      let sum ← sum
      let v ← Hex.value? c
      pure (sum * 16 + v)) (some 0)

/-- The value of a decimal number below 256 that is written without needless zeros. -/
def byte? (t : Text) : Option Nat :=
  if t = [] ∨ 3 < t.length ∨ !t.all Char.isDigit ∨ (t.head? = some '0' ∧ t ≠ ['0']) then none
  else
    let n := t.foldl (fun sum c => sum * 10 + (c.toNat - '0'.toNat)) 0
    if n < 256 then some n else none

/-- The two groups that four decimal numbers stand for. -/
def dotted? (t : Text) : Option (List Nat) := do
  match ← (Text.splitAt '.' t).mapM byte? with
  | [a, b, c, d] => pure [a * 256 + b, c * 256 + d]
  | _ => none

/-- Groups between colons; the last may be four decimal numbers if `dotted` tells so. -/
def groups? (dotted : Bool) : List Text → Option (List Nat)
  | [] => some []
  | [last] => if dotted && last.contains '.' then dotted? last else (group? last).map ([·])
  | g :: rest => do
    let value ← group? g
    let values ← groups? dotted rest
    pure (value :: values)

/-- The groups of a text that may be empty. -/
def half? (dotted : Bool) (t : Text) : Option (List Nat) :=
  if t = [] then some [] else groups? dotted (Text.splitAt ':' t)

/-- Cuts a text at the first two colons side by side. -/
def cutDouble : Text → Option (Text × Text)
  | ':' :: ':' :: rest => some ([], rest)
  | c :: rest => (cutDouble rest).map fun (before, after) => (c :: before, after)
  | [] => none

/-- The eight groups of an address. -/
def address? (t : Text) : Option (List Nat) :=
  match cutDouble t with
  | none => do
    let groups ← half? true t
    if groups.length = 8 then pure groups else none
  | some (before, after) => do
    let first ← half? false before
    let last ← half? true after
    let count := first.length + last.length
    if count ≤ 7 then pure (first ++ List.replicate (8 - count) 0 ++ last) else none

/-- A number in small hexadecimal digits. -/
def hex (n : Nat) : Text := Nat.toDigits 16 n

/-- How many zeros a list begins with. -/
def zeros (groups : List Nat) : Nat := (groups.takeWhile (· == 0)).length

/-- Place and length of the longest stretch of zeros, the first one if there are several. -/
def longestZeros (groups : List Nat) : Nat × Nat :=
  (List.range groups.length).foldl
    (fun (place, length) i =>
      let here := zeros (groups.drop i)
      if length < here then (i, here) else (place, length)) (0, 0)

/-- An address with its longest stretch of zeros left out. -/
def render (groups : List Nat) : Text :=
  let written (gs : List Nat) : Text := Text.join [':'] (gs.map hex)
  let (place, length) := longestZeros groups
  if length < 2 then written groups
  else written (groups.take place) ++ ':' :: ':' :: written (groups.drop (place + length))

example : (address? "::ffff:1.2.3.4".toList).map render = some "::ffff:102:304".toList := by
  decide +kernel

example : (address? "1:2:0:0:0:0:7:8".toList).map render = some "1:2::7:8".toList := by
  decide +kernel

end BuildScript.Ipv6
