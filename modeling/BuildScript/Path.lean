import BuildScript.Text.Basic

/-!
# Paths

Paths are texts, and what is done with them here is done on the text alone: no file system is asked.
`normalize` gives an absolute path without empty, `.` and `..` components; a slash at the end stays.
-/

namespace BuildScript.Path

/-- Adds a component to those met so far, the last one first. -/
def push (seen : List Text) (component : Text) : List Text :=
  if component = [] ∨ component = ['.'] then seen
  else if component = ['.', '.'] then seen.tail
  else component :: seen

/-- The components that a path names below the root. -/
def components (path : Text) : List Text :=
  ((Text.splitAt '/' path).foldl push []).reverse

/-- Whether a path ends in a slash. -/
def endsInSlash (path : Text) : Bool := path.getLast? == some '/'

/-- An absolute path without empty, `.` and `..` components that names what `path` names below the root.
A slash at the end stays. -/
def normalize (path : Text) : Text :=
  let cs := components path
  '/' :: Text.join ['/'] cs ++ (if endsInSlash path && !cs.isEmpty then ['/'] else [])

/-- The directory of a path, slashes at the end apart. A path without one is taken to be in the root. -/
def parent (path : Text) : Text :=
  let above := ((Text.dropTrailing '/' path).reverse.dropWhile (· ≠ '/')).tail.reverse
  if above = [] then ['/'] else above

/-- The directory that a file is looked up in: what stands before its name. -/
def directory (path : Text) : Text :=
  match path.reverse.dropWhile (· ≠ '/') with
  | [] => ['.']
  | above => above.reverse

/-- One path below another; an absolute path stands for itself. -/
def below (base path : Text) : Text :=
  match path with
  | '/' :: _ => path
  | _ => if base = [] ∨ endsInSlash base then base ++ path else base ++ '/' :: path

/-- The name that a path ends in, slashes and `.` components at the end apart. A path that ends in `..`
or names the root has none. -/
def fileName? (path : Text) : Option Text :=
  match ((Text.splitAt '/' path).filter (fun c => c ≠ [] ∧ c ≠ ['.'])).getLast? with
  | some name => if name = ['.', '.'] then none else some name
  | none => none

end BuildScript.Path
