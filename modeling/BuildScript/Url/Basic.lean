import BuildScript.Url.Host
import BuildScript.Url.Segments

/-!
# URLs

The URLs that can be fetched: absolute ones whose scheme is `http` or `https`. Reading is as lenient as a
browser's address bar: control characters and spaces around the text are left out, as are tabs and line
ends inside; backslashes are slashes, and their number after the scheme does not matter. The URL that is
read is in normal form, and `render` writes that.
-/

namespace BuildScript

/-- The schemes that can be fetched. -/
inductive Scheme where
  | http
  | https
  deriving DecidableEq, Repr

namespace Scheme

/-- A scheme as it is written. -/
def name : Scheme → Text
  | .http => "http".toList
  | .https => "https".toList

/-- The port that a URL of the scheme has unless it names one. -/
def defaultPort : Scheme → Nat
  | .http => 80
  | .https => 443

/-- The scheme that a text spells, in letters of either case. -/
def ofText? (t : Text) : Option Scheme :=
  [http, https].find? (·.name == Text.lower t)

end Scheme

/-- An absolute URL that can be fetched, with all its parts encoded. -/
structure Url where
  scheme : Scheme
  /-- What stands before the host, with its mark. -/
  userinfo : Text
  host : Host
  /-- The port, if it is not the one of the scheme. -/
  port : Option Nat
  path : List Text
  query : Option Text
  fragment : Option Text
  deriving DecidableEq, Repr

namespace Url

/-- Removes what does not count: control characters and spaces at the ends, tabs and line ends inside. -/
def clean (t : Text) : Text :=
  let ends (t : Text) : Text := (t.dropWhile (· ≤ ' ')).reverse
  (ends (ends t)).filter fun c => c ≠ '\t' ∧ c ≠ '\n' ∧ c ≠ '\r'

/-- Cuts a text after its first colon that ends a scheme. -/
def scheme? (t : Text) : Option (Scheme × Text) := do
  let (name, rest) ← Text.cutAt ':' t
  let scheme ← Scheme.ofText? name
  pure (scheme, rest)

/-- Whether a character ends the authority of a URL. -/
def endsAuthority (c : Char) : Bool := c == '/' || c == '\\' || c == '?' || c == '#'

/-- Cuts an authority after its last `@`: what stands before it and the host with its port. -/
def splitUserinfo (authority : Text) : Option Text × Text :=
  let after := (authority.reverse.takeWhile (· ≠ '@')).reverse
  match authority.reverse.dropWhile (· ≠ '@') with
  | [] => (none, after)
  | _ :: before => (some before.reverse, after)

/-- Name and password, encoded and with their mark; nothing if there is neither. -/
def renderUserinfo (t : Text) : Text :=
  let (user, password) := (Text.cutAt ':' t).getD (t, [])
  if user = [] ∧ password = [] then []
  else
    Percent.encode Percent.inUserinfo user ++
      (if password = [] then [] else ':' :: Percent.encode Percent.inUserinfo password) ++ ['@']

/-- Cuts a text before the colon that ends a host; a colon between brackets does not. -/
def splitHost (bracketed : Bool) : Text → Text × Text
  | [] => ([], [])
  | c :: rest =>
    if c = ':' ∧ bracketed = false then ([], c :: rest)
    else
      let inside := if c = '[' then true else if c = ']' then false else bracketed
      let (host, after) := splitHost inside rest
      (c :: host, after)

/-- The port that a text after a host writes. There may be none, also after the colon. -/
def port? (t : Text) : Option (Option Nat) :=
  match t with
  | [] => some none
  | _ :: digits =>
    if digits = [] then some none
    else if digits.all Char.isDigit then
      let n := digits.foldl (fun sum c => sum * 10 + (c.toNat - '0'.toNat)) 0
      if n < 65536 then some (some n) else none
    else none

/-- Cuts a text at the first `mark`, if there is one. -/
def splitMark (mark : Char) (t : Text) : Text × Option Text :=
  match Text.cutAt mark t with
  | some (before, after) => (before, some after)
  | none => (t, none)

/-- The URL that a text writes. -/
def ofText? (t : Text) : Option Url := do
  let (scheme, rest) ← scheme? (clean t)
  let rest := rest.dropWhile fun c => c == '/' || c == '\\'
  let (userinfo, hostPort) := splitUserinfo (rest.takeWhile (!endsAuthority ·))
  let (hostText, portText) := splitHost false hostPort
  let host ← if hostText = [] then none else Host.ofText? hostText
  let port ← port? portText
  let (beforeFragment, fragment) := splitMark '#' (rest.dropWhile (!endsAuthority ·))
  let (path, query) := splitMark '?' beforeFragment
  pure
    { scheme := scheme
      userinfo := (userinfo.map renderUserinfo).getD []
      host := host
      port := port.filter (· ≠ scheme.defaultPort)
      path := segmentsOf path
      query := query.map (Percent.encode Percent.inQuery)
      fragment := fragment.map (Percent.encode Percent.inFragment) }

/-- A URL as it is written. -/
def render (u : Url) : Text :=
  u.scheme.name ++ "://".toList ++ u.userinfo ++ u.host.render ++
    (match u.port with
      | some n => ':' :: Text.ofNat n
      | none => []) ++
    '/' :: Text.join ['/'] u.path ++
    (match u.query with
      | some q => '?' :: q
      | none => []) ++
    (match u.fragment with
      | some f => '#' :: f
      | none => [])

/-- The name that a file fetched from a URL gets. -/
def fileName (u : Url) : Text :=
  match u.path.getLast? with
  | none | some [] => "download".toList
  | some name => name

end Url

end BuildScript
