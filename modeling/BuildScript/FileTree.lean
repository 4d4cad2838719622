import BuildScript.Bytes.Base64
import BuildScript.Path

/-!
# File trees

A file system as a value: directories and files, each at its place below the root. A path is looked up
component by component, and all but the last one have to be directories; so does what stands before a
slash at the end.
-/

namespace BuildScript

/-- Why a file cannot be read or written. -/
inductive FileError where
  | notFound
  | notADirectory
  | isADirectory
  /-- The bytes are no UTF-8. -/
  | notText
  /-- Any other reason, in the words of the system. -/
  | other (reason : Text)
  deriving DecidableEq, Repr

namespace FileError

/-- The error in words. -/
def message : FileError → Text
  | .notFound => "No such file or directory (os error 2)".toList
  | .notADirectory => "Not a directory (os error 20)".toList
  | .isADirectory => "Is a directory (os error 21)".toList
  | .notText => "stream did not contain valid UTF-8".toList
  | .other reason => reason

end FileError

/-- The text that bytes encode. -/
def Bytes.text (bytes : Bytes) : Except FileError Text :=
  match String.fromUTF8? ⟨bytes.toArray⟩ with
  | some s => .ok s.toList
  | none => .error .notText

/-- The bytes of a text. -/
def Bytes.ofText (t : Text) : Bytes := t.flatMap String.utf8EncodeChar

/-- What stands at a place of a file tree. -/
inductive Node where
  | directory
  | file (bytes : Bytes) (mode : Nat)
  deriving DecidableEq, Repr

/-- A place, as the names on the way from the root. -/
abbrev Place := List Text

/-- Directories and files by place. The root is a directory that is always there. -/
structure FileTree where
  entries : List (Place × Node)
  deriving Repr

namespace FileTree

/-- The tree that has only a root. -/
def empty : FileTree := ⟨[]⟩

/-- What stands at a place. -/
def node? (tree : FileTree) (place : Place) : Option Node :=
  if place = [] then some .directory else tree.entries.lookup place

/-- Puts something at a place. -/
def put (tree : FileTree) (place : Place) (node : Node) : FileTree :=
  ⟨(place, node) :: tree.entries⟩

/-- Makes a directory at a place, and at the places above it, unless something is there. -/
def makeDirectory (tree : FileTree) (place : Place) : FileTree :=
  (List.range (place.length + 1)).foldl
    (fun tree depth =>
      if (tree.node? (place.take depth)).isSome then tree
      else tree.put (place.take depth) .directory)
    tree

/-- Follows the components of a path from a place. What is passed has to be a directory; what the last
component names may be missing. -/
def follow (tree : FileTree) (place : Place) : List Text → Except FileError Place
  | [] => .ok place
  | component :: rest =>
    match tree.node? place with
    | none => .error .notFound
    | some (.file _ _) => .error .notADirectory
    | some .directory =>
      if component = [] ∨ component = ['.'] then follow tree place rest
      else if component = ['.', '.'] then follow tree place.dropLast rest
      else follow tree (place ++ [component]) rest

/-- The place that a path names, looked up from the directory `cwd`. -/
def resolve (tree : FileTree) (cwd : Place) (path : Text) : Except FileError Place :=
  match path with
  | [] => .error .notFound
  | '/' :: rest => tree.follow [] (Text.splitAt '/' rest)
  | _ => tree.follow cwd (Text.splitAt '/' path)

/-- The bytes of a file. -/
def read (tree : FileTree) (cwd : Place) (path : Text) : Except FileError Bytes := do
  let place ← tree.resolve cwd path
  match tree.node? place with
  | none => .error .notFound
  | some .directory => .error .isADirectory
  | some (.file bytes _) => .ok bytes

/-- The tree after a file was written; a file that is not there is made. -/
def write (tree : FileTree) (cwd : Place) (path : Text) (bytes : Bytes) (mode : Nat) :
    Except FileError FileTree := do
  if Path.endsInSlash path then
    let above := Text.dropTrailing '/' path
    if above ≠ [] then let _ ← tree.resolve cwd above
    .error .isADirectory
  else
    let place ← tree.resolve cwd path
    match tree.node? place with
    | some .directory => .error .isADirectory
    | _ => .ok (tree.put place (.file bytes mode))

/-- The absolute path of a place. -/
def render (place : Place) : Text := '/' :: Text.join ['/'] place

/-- The absolute path, without dots and needless slashes, of what a path names. -/
def canonical? (tree : FileTree) (cwd : Place) (path : Text) : Option Text :=
  match tree.resolve cwd path with
  | .ok place => if (tree.node? place).isSome then some (render place) else none
  | .error _ => none

end FileTree

end BuildScript
