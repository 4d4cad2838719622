import BuildScript.Dockerfile.Command
import BuildScript.Compile.Outcome
import BuildScript.Word.Lexer

/-!
# Arguments of `COPY` and `ADD`

Flags come first, then the sources, and the destination last; sources and destination may also be a JSON
array. Sources are expanded, and the destination is resolved as a path. A destination that is written as
a directory keeps a slash at its end.
-/

namespace BuildScript

/-- The flags of `COPY` and `ADD` that have a meaning here. -/
structure DeliveryFlags where
  owner : Option Word := none
  mode : Option Word := none
  /-- Whether the sources come from another build stage. -/
  fromStage : Bool := false
  deriving DecidableEq, Repr

/-- Sources, expanded, and their destination, resolved. -/
structure Delivery where
  flags : DeliveryFlags
  sources : List Word
  dest : Word
  deriving DecidableEq, Repr

/-- A path with a slash at its end. -/
def Word.withSlash (path : Word) : Word :=
  if path.endsWith ['/'] then path else path ++ .literal ['/']

namespace State

/-- Takes up one flag, written `name=value` or `name`. A flag without meaning here is passed over. -/
def setFlag (s : State) (flags : DeliveryFlags) (flag : Text) : DeliveryFlags :=
  let (name, value) := (Text.cutAt '=' flag).getD (flag, [])
  let word := Word.lex s.escape value
  if name = "chown".toList then { flags with owner := some (s.expand word) }
  else if name = "chmod".toList then { flags with mode := some (s.expand word) }
  else if name = "from".toList then { flags with fromStage := true }
  else flags

/-- Takes up the flags at the start of an argument. The answer holds what follows them. -/
def readFlags (s : State) (flags : DeliveryFlags) (raw : Text) : DeliveryFlags × Text :=
  match raw with
  | '-' :: '-' :: rest =>
    readFlags s (s.setFlag flags (Text.beforeBlank rest).1)
      (Text.trimStart (Text.beforeBlank rest).2)
  | _ => (flags, raw)
termination_by raw.length
decreasing_by
  have h1 := (List.dropWhile_suffix isBlank (l := (Text.beforeBlank rest).2)).length_le
  have h2 := (List.dropWhile_suffix (!isBlank ·) (l := rest)).length_le
  simp only [Text.trimStart, Text.beforeBlank, List.length_cons] at *
  omega

/-- Whether a destination is written as a directory. -/
def namesDirectory (dest : Word) : Bool :=
  dest.endsWith ['/'] || dest == .literal ['.'] || dest == .literal ['.', '.'] ||
    dest.endsWith ['/', '.'] || dest.endsWith ['/', '.', '.']

/-- The words of an argument that is a JSON array of strings or a list of words. -/
def argumentWords (s : State) (raw : Text) : List Word :=
  match execItems? raw with
  | some items => items.map .literal
  | none => Word.lexAll s.escape raw

/-- Reads the argument of `COPY` and `ADD`, which has at least one source. -/
def delivery? (s : State) (raw : Text) : Option Delivery :=
  let (flags, rest) := s.readFlags {} (Text.trimStart raw)
  match (s.argumentWords rest).reverse with
  | dest :: last :: others =>
    let resolved := s.resolve (s.expand dest)
    some
      { flags := flags
        sources := (last :: others).reverse.map s.expand
        dest := if namesDirectory dest then resolved.withSlash else resolved }
  | _ => none

end State

namespace Delivery

/-- Whether the destination is a directory: it is written as one, or there are several sources. -/
def intoDirectory (d : Delivery) : Bool :=
  d.dest.endsWith ['/'] || 1 < d.sources.length

/-- The path of a file in the destination directory. -/
def inside (d : Delivery) (name : Text) : Word := d.dest.withSlash ++ .literal name

/-- The path that a single file with the given name gets. -/
def target (d : Delivery) (name : Text) : Word :=
  if d.intoDirectory then d.inside name else d.dest

/-- The directory that has to exist, as the shell reads it. With `unpacks` the destination is one. -/
def directory (d : Delivery) (unpacks : Bool) : Text :=
  if unpacks || d.intoDirectory then d.dest.toShell
  else
    match d.dest.text? with
    | some path => (Word.literal (Path.parent path)).toShell
    | none => "\"$(dirname -- ".toList ++ d.dest.toShell ++ ")\"".toList

/-- The commands that set owner and mode. -/
def ownership (d : Delivery) : List Text :=
  let command (name : String) (arg : Word) : Text :=
    name.toList ++ " -R ".toList ++ arg.toShell ++ ' ' :: d.dest.toShell
  (d.flags.owner.map (command "chown")).toList ++ (d.flags.mode.map (command "chmod")).toList

end Delivery

end BuildScript
