import BuildScript.Path
import BuildScript.Word.Render

/-!
# The state of compiling

What an instruction means depends on those before it: on the working directory, on the variables that
`ENV` recorded and on the user that commands run as. Words are expanded in a state (`expand`) and paths
are resolved in it (`resolve`).
-/

namespace BuildScript

/-- The variable that holds the build context when no directory was given for it. -/
def contextVariable : Text := "DOCKER2SH_CONTEXT".toList

/-- The variables that `ENV` recorded, the latest first. -/
abbrev Environment := List (Text × Word)

namespace Environment

/-- The value that was recorded last for a name. -/
def get? (env : Environment) (name : Text) : Option Word := env.lookup name

/-- Records a value for a name. -/
def set (name : Text) (value : Word) (env : Environment) : Environment := (name, value) :: env

@[simp] theorem get?_set (env : Environment) (name other : Text) (value : Word) :
    (env.set name value).get? other = if other = name then some value else env.get? other := by
  unfold get? set
  by_cases h : other = name
  · simp [h]
  · have hne : (other == name) = false := by simpa using h
    simp [List.lookup_cons, hne, h]

/-- Substitutes the recorded variables of a word; all others stay references. A modifier that applies is
replaced by its word, expanded. -/
def expand (env : Environment) : Word → Word
  | .nil => .nil
  | .char c rest => .char c (expand env rest)
  | .var name rest =>
    match env.get? name with
    | some value => value ++ expand env rest
    | none => .var name (expand env rest)
  | .cond name choice arg rest =>
    match env.get? name, choice with
    | some value, .default =>
      (if value.isEmpty then expand env arg else value) ++ expand env rest
    | some value, .alternate =>
      (if value.isEmpty then .nil else expand env arg) ++ expand env rest
    | none, choice => .cond name choice (expand env arg) (expand env rest)

end Environment

/-- What is known after some instructions. -/
structure State where
  escape : Char
  /-- The working directory, once `WORKDIR` has set it. -/
  workdir : Option Word
  env : Environment
  /-- The user that commands run as, unless it is the one that runs the script. -/
  user : Option Word
  /-- Whether a line refers to `contextVariable`. -/
  usesContext : Bool
  deriving Repr

namespace State

/-- The state before the first instruction. -/
def initial (escape : Char) : State :=
  { escape := escape
    workdir := none
    env := []
    user := none
    usesContext := false }

/-- The directory that relative paths start from. -/
def workingDir (s : State) : Word := s.workdir.getD (.literal ['/'])

/-- Substitutes the recorded variables of a word. -/
def expand (s : State) (w : Word) : Word := s.env.expand w

/-- A path below the working directory, unless it begins with a slash. A path without references is
normalized. -/
def resolve (s : State) (path : Word) : Word :=
  let joined :=
    if path.startsWith ['/'] then path
    else
      let base := s.workingDir
      (if base.endsWith ['/'] then base else base ++ .literal ['/']) ++ path
  match joined.text? with
  | some text => .literal (Path.normalize text)
  | none => joined

end State

end BuildScript
