import BuildScript.Bytes.Deflate.Block

/-!
# Gzip

A gzip member: a header, the compressed bytes, and a trailer with a checksum and the length of the bytes.
The members written here are for running the program where no other packer is chosen; the format allows
many for the same bytes, and whatever packs files may write another. Reading takes exactly the members that
can be written here.
-/

namespace BuildScript.Gzip

/-- One step of the checksum: eight shifts of the register with the reversed polynomial. -/
def crcByte (register : UInt32) (byte : UInt8) : UInt32 :=
  (List.range 8).foldl
    (fun r _ => if r &&& 1 = 1 then (r >>> 1) ^^^ 0xEDB88320 else r >>> 1)
    (register ^^^ byte.toUInt32)

/-- The 32-bit cyclic redundancy check. -/
def crc32 (bytes : Bytes) : UInt32 :=
  bytes.foldl crcByte 0xFFFFFFFF ^^^ 0xFFFFFFFF

/-- The header: no name, no time, the strongest compression and no system named. -/
def header : Bytes := [0x1f, 0x8b, 8, 0, 0, 0, 0, 0, 2, 0xff]

/-- Checksum and length of the bytes. -/
def trailer (bytes : Bytes) : Bytes :=
  Bytes.ofLong (crc32 bytes).toNat ++ Bytes.ofLong bytes.length

/-- A gzip member that holds bytes. -/
def pack (bytes : Bytes) : Bytes :=
  header ++ Deflate.compress bytes ++ trailer bytes

/-- The bytes that a gzip member holds. -/
def unpack? (t : Bytes) : Option Bytes :=
  if header.isPrefixOf t then
    let body := t.drop header.length
    let size := body.length - 8
    match Deflate.decompress? (body.take size) with
    | some bytes => if body.drop size = trailer bytes then some bytes else none
    | none => none
  else none

end BuildScript.Gzip
