import BuildScript.Bytes.Chunks
import BuildScript.Bytes.Deflate.FixedCode

/-!
# Deflate

Compressed bytes are blocks. Here they are either one block in the fixed code or, where that would be no
shorter, stored blocks of at most 65535 bytes each, which hold the bytes as they are. Reading takes
exactly these two shapes.
-/

namespace BuildScript

/-- A number below 2^16 as two bytes, the low one first. -/
def Bytes.ofWord (n : Nat) : Bytes :=
  [UInt8.ofNat n, UInt8.ofNat (n / 256)]

/-- A number below 2^32 as four bytes, the lowest first. -/
def Bytes.ofLong (n : Nat) : Bytes :=
  Bytes.ofWord n ++ Bytes.ofWord (n / 65536)

namespace Deflate

/-- One stored block: a mark on the last one, the length, the length inverted, the bytes. -/
def storedBlock (isLast : Bool) (bytes : Bytes) : Bytes :=
  (if isLast then 1 else 0) ::
    (Bytes.ofWord bytes.length ++ Bytes.ofWord (65535 - bytes.length) ++ bytes)

/-- Stored blocks in order, the last of which is marked. No bytes are one empty block. -/
def storedBlocks : List Bytes → Bytes
  | [] => storedBlock true []
  | [bytes] => storedBlock true bytes
  | bytes :: others => storedBlock false bytes ++ storedBlocks others

/-- Bytes in stored blocks. -/
def stored (bytes : Bytes) : Bytes := storedBlocks (chunks 65534 bytes)

/-- The bits that begin a last block in the fixed code. -/
def fixedMark : List Bool := [true, true, false]

/-- Bytes in one block in the fixed code. -/
def fixed (bytes : Bytes) : Bytes :=
  Bits.toBytes (fixedMark ++ fixedBits (tokens bytes))

/-- Compressed bytes. -/
def compress (bytes : Bytes) : Bytes :=
  let packed := fixed bytes
  let plain := stored bytes
  if packed.length < plain.length then packed else plain

/-- Reads stored blocks up to the marked one, which ends the input. -/
def readStored? (t : Bytes) : Option Bytes :=
  match t with
  | flag :: a :: b :: c :: d :: rest =>
    let size := a.toNat + b.toNat * 256
    if c.toNat + d.toNat * 256 = 65535 - size ∧ size ≤ rest.length then
      if flag = 1 then if size = rest.length then some rest else none
      else if flag = 0 then (readStored? (rest.drop size)).map (rest.take size ++ ·)
      else none
    else none
  | _ => none
termination_by t.length
decreasing_by simp only [List.length_drop, List.length_cons]; omega

/-- Reads one block in the fixed code, which ends the input but for bits that fill up its last byte. -/
def readFixed? (t : Bytes) : Option Bytes :=
  match fixedTokens? ((Bits.ofBytes t).drop fixedMark.length) with
  | some (ts, rest) => if rest.length < 8 ∧ rest.all (!·) then expand? ts else none
  | none => none

/-- The bytes that were compressed. -/
def decompress? (t : Bytes) : Option Bytes :=
  match t with
  | [] => none
  | first :: _ =>
    if fixedMark = (Bits.ofNat 8 first.toNat).take fixedMark.length then readFixed? t
    else readStored? t

end Deflate

end BuildScript
