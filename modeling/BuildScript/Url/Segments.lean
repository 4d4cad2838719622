import BuildScript.Url.Percent

/-!
# Paths of URLs

The path of a URL is a list of segments, which is never empty. The segments `.` and `..`, also when they
are percent-encoded, are resolved while the path is read: `..` takes away the segment before it, unless
that is a drive letter. If the last segment is one of the two, the path ends in an empty segment.
-/

namespace BuildScript.Url

/-- Whether a segment stands for the place that it is in. -/
def isSingleDot (segment : Text) : Bool :=
  [".", "%2e"].any (·.toList == Text.lower segment)

/-- Whether a segment stands for the place above. -/
def isDoubleDot (segment : Text) : Bool :=
  ["..", ".%2e", "%2e.", "%2e%2e"].any (·.toList == Text.lower segment)

/-- Whether a segment is a drive letter. -/
def isDrive : Text → Bool
  | [letter, mark] => letter.isAlpha && (mark == ':' || mark == '|')
  | _ => false

/-- Takes away the last segment met so far; a drive letter stays. -/
def up : List Text → List Text
  | [] => []
  | segment :: seen => if isDrive segment then segment :: seen else seen

/-- Resolves dot segments; `seen` holds the segments met so far, the last one first. -/
def resolveFrom (seen : List Text) : List Text → List Text
  | [] => seen.reverse
  | [last] =>
    if isDoubleDot last then ([] :: up seen).reverse
    else if isSingleDot last then ([] :: seen).reverse
    else (last :: seen).reverse
  | segment :: rest =>
    if isDoubleDot segment then resolveFrom (up seen) rest
    else if isSingleDot segment then resolveFrom seen rest
    else resolveFrom (segment :: seen) rest

/-- The segments of the path that a text writes, percent-encoded. A backslash separates as a slash does;
a separator at the start is the root. -/
def segmentsOf (t : Text) : List Text :=
  let t := t.map fun c => if c = '\\' then '/' else c
  let t := if t.head? = some '/' then t.tail else t
  resolveFrom [] ((Text.splitAt '/' t).map (Percent.encode Percent.inPath))

end BuildScript.Url
