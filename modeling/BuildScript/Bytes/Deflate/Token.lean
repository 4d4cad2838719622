import BuildScript.Bytes.Base64

/-!
# Repetitions in bytes

Bytes are told as tokens: a byte, or a stretch that repeats what stands some way back. A stretch may reach
into itself, so that a short pattern can be repeated many times. `tokens` finds the longest repetition
at each place, looking back at most `window` bytes, fewer than the format allows, to keep the search short;
`expand?` writes the bytes out again, however far back the stretches reach.
-/

namespace BuildScript.Deflate

/-- A byte, or `length` bytes equal to those that stand `distance` bytes before them. -/
inductive Token where
  | byte (b : UInt8)
  | copy (length distance : Nat)
  deriving DecidableEq, Repr

/-- How far back repetitions are looked for. -/
def window : Nat := 32

/-- The length of the longest stretch that a token can repeat. -/
def longestStretch : Nat := 258

/-- How many bytes two byte strings have in common at their start, up to a limit. -/
def commonLength : (limit : Nat) → Bytes → Bytes → Nat
  | limit + 1, a :: s, b :: t => if a = b then commonLength limit s t + 1 else 0
  | _, _, _ => 0

/-- Length and distance of the longest repetition at the start of `rest`, the nearest one if there are
several. `source` is what begins `distance` bytes before `rest` and goes on into it; `seen` holds the bytes
before that, the last one first. -/
def longestRepeat (rest : Bytes) (distance : Nat) (source : Bytes) : (seen : Bytes) → Nat × Nat
  | [] => (0, 0)
  | b :: seen =>
    let here := commonLength longestStretch (b :: source) rest
    let further := longestRepeat rest (distance + 1) (b :: source) seen
    if further.1 ≤ here then (here, distance + 1) else further

/-- The tokens of `rest`, which stands after `seen`. A repetition shorter than three bytes is not worth a
token. -/
def tokensFrom (seen rest : Bytes) : List Token :=
  match rest with
  | [] => []
  | b :: after =>
    let (length, distance) := longestRepeat rest 0 rest (seen.take window)
    if 3 ≤ length then
      .copy length distance ::
        tokensFrom (((b :: after).take length).reverse ++ seen) (after.drop (length - 1))
    else .byte b :: tokensFrom (b :: seen) after
termination_by rest.length
decreasing_by
  · simp only [List.length_drop, List.length_cons]; omega
  · simp

/-- The tokens of bytes. -/
def tokens (bytes : Bytes) : List Token := tokensFrom [] bytes

/-- Repeats bytes that stand `distance` bytes before the end of `seen`, the last one first. -/
def repeatBytes? (distance : Nat) : (length : Nat) → (seen : Bytes) → Option Bytes
  | 0, seen => some seen
  | length + 1, seen =>
    match seen[distance - 1]? with
    | some b => repeatBytes? distance length (b :: seen)
    | none => none

/-- The bytes of tokens after `seen`, all of them with the last one first. -/
def expandFrom? (seen : Bytes) : List Token → Option Bytes
  | [] => some seen
  | .byte b :: rest => expandFrom? (b :: seen) rest
  | .copy length distance :: rest =>
    (repeatBytes? distance length seen).bind fun seen => expandFrom? seen rest

/-- The bytes of tokens. -/
def expand? (ts : List Token) : Option Bytes := (expandFrom? [] ts).map List.reverse

end BuildScript.Deflate
