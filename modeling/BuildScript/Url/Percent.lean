import BuildScript.Bytes.Base64
import BuildScript.Text.Hex

/-!
# Percent encoding

A character that a part of a URL may not hold is written as its UTF-8 bytes, each as a percent sign and
two capital hexadecimal digits. Control characters and all that is not ASCII are never held; what else
is encoded depends on the part (`inFragment`, `inPath`, `inUserinfo`, `inQuery`). A percent sign is
held everywhere, so text that is encoded already stays as it is.
-/

namespace BuildScript.Percent

/-- Whether no part of a URL holds a character. -/
def isControl (c : Char) : Bool := c.toNat < 0x20 || 0x7F ≤ c.toNat

/-- Whether a fragment does not hold a character. -/
def inFragment (c : Char) : Bool := isControl c || " \"<>`".toList.contains c

/-- Whether a path does not hold a character. -/
def inPath (c : Char) : Bool := inFragment c || "#?\x7b\x7d".toList.contains c

/-- Whether the part before the host does not hold a character. -/
def inUserinfo (c : Char) : Bool := inPath c || "/:;=@[\\]^|".toList.contains c

/-- Whether a query does not hold a character. -/
def inQuery (c : Char) : Bool := isControl c || " \"#<>'".toList.contains c

/-- A byte as a percent sign and two digits. -/
def ofByte (b : UInt8) : Text :=
  ['%', Hex.capital (b.toNat / 16), Hex.capital b.toNat]

/-- Encodes the characters that `encoded` tells. -/
def encode (encoded : Char → Bool) (t : Text) : Text :=
  t.flatMap fun c => if encoded c then (String.utf8EncodeChar c).flatMap ofByte else [c]

/-- The bytes that a text stands for. A percent sign without two digits stands for itself. -/
def decode : Text → Bytes
  | [] => []
  | '%' :: a :: b :: rest =>
    match Hex.value? a, Hex.value? b with
    | some x, some y => UInt8.ofNat (x * 16 + y) :: decode rest
    | _, _ => UInt8.ofNat '%'.toNat :: decode (a :: b :: rest)
  | c :: rest => String.utf8EncodeChar c ++ decode rest

end BuildScript.Percent
