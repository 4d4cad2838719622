import BuildScript.Url.Ipv4
import BuildScript.Url.Ipv6
import BuildScript.Url.Label
import BuildScript.Url.Percent

/-!
# Hosts

The host of a URL is an IPv6 address in brackets, an IPv4 address or a domain name. Domain names are
written in small ASCII letters; a label with other characters is written in Punycode
(`BuildScript.Label`).
-/

namespace BuildScript

/-- A host: a domain name, or an address. -/
inductive Host where
  | domain (name : Text)
  | ipv4 (address : Nat)
  | ipv6 (groups : List Nat)
  deriving DecidableEq, Repr

namespace Host

/-- Whether a domain name may not hold a character. -/
def isForbidden (c : Char) : Bool :=
  c.toNat ≤ 0x20 || c.toNat == 0x7F || "%#/:<>?@[\\]^|".toList.contains c

/-- The domain name that the text of a host stands for. A name with characters that are written from
right to left has labels of one direction each. -/
def domain? (t : Text) : Option Text := do
  let decoded ← String.fromUTF8? ⟨(Percent.decode t).toArray⟩
  let labels ← (Text.splitAt '.' (Text.lower decoded.toList)).mapM Label.ofText?
  let name := Text.join ['.'] (labels.map Label.toAscii)
  if labels.any Label.hasRightToLeft ∧ !labels.all Label.hasOneDirection then none
  else if name = [] ∨ name.any isForbidden then none
  else pure name

/-- The host that a text writes. -/
def ofText? (t : Text) : Option Host :=
  match t with
  | '[' :: rest =>
    if rest.getLast? = some ']' then (Ipv6.address? rest.dropLast).map .ipv6 else none
  | _ => do
    let name ← domain? t
    if Ipv4.isNumeric name then (Ipv4.address? name).map .ipv4 else pure (.domain name)

/-- A host as it is written. -/
def render : Host → Text
  | .domain name => name
  | .ipv4 address => Ipv4.render address
  | .ipv6 groups => '[' :: Ipv6.render groups ++ [']']

end Host

end BuildScript
