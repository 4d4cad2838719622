import BuildScript.Text.Hex

/-!
# IPv4 addresses

An address is written as up to four numbers between dots; the last one fills all bytes that are left. Each
number may be decimal, octal (after a zero) or hexadecimal (after `0x`). A host whose last part looks
like such a number is an address or nothing.
-/

namespace BuildScript.Ipv4

/-- The value of a text of digits to a base. -/
def digits? (base : Nat) (t : Text) : Option Nat :=
  t.foldl (fun sum c => do
    let sum ← sum
    let v ← Hex.value? c
    if v < base then some (sum * base + v) else none) (some 0)

/-- The value of one part of an address. A base mark without digits is zero. -/
def number? (part : Text) : Option Nat :=
  match part with
  | [] => none
  | '0' :: 'x' :: rest | '0' :: 'X' :: rest => digits? 16 rest
  | '0' :: rest => digits? 8 rest
  | _ => digits? 10 part

/-- The parts of a host name; one dot at the end is left out. -/
def parts (host : Text) : List Text :=
  let all := Text.splitAt '.' host
  if all.getLast? = some [] then all.dropLast else all

/-- Whether a host name can only be an address. -/
def isNumeric (host : Text) : Bool :=
  match (parts host).getLast? with
  | none => false
  | some last => (!last.isEmpty && last.all Char.isDigit) || (number? last).isSome

/-- The value of numbers of which all but the last stand for one byte. -/
def value? : List Nat → Option Nat
  | [] => none
  | numbers =>
    let bytes := numbers.dropLast
    match numbers.getLast? with
    | none => none
    | some last =>
      let room := Nat.pow 256 (5 - numbers.length)
      if numbers.length ≤ 4 ∧ bytes.all (· < 256) ∧ last < room then
        some (bytes.foldl (fun sum b => sum * 256 + b) 0 * room + last)
      else none

/-- The address that a host name writes. -/
def address? (host : Text) : Option Nat :=
  (parts host).mapM number? >>= value?

/-- An address as four decimal numbers. -/
def render (address : Nat) : Text :=
  Text.join ['.']
    ([address / 16777216, address / 65536 % 256, address / 256 % 256, address % 256].map Text.ofNat)

example : (address? "0300.0250.1".toList).map render = some "192.168.0.1".toList := by
  decide +kernel

end BuildScript.Ipv4
