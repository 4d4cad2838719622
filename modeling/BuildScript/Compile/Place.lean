import BuildScript.Compile.Delivery

/-!
# `WORKDIR`, `VOLUME` and `USER`

`WORKDIR` makes its directory, enters it, and is where relative paths start from now on. `VOLUME` makes
directories. `USER` names the user that later commands run as; the group after a colon is left out, and
`root` is the user that runs the script.
-/

namespace BuildScript.State

/-- Compiles `WORKDIR`. -/
def compileWorkdir (s : State) (raw : Text) : Option Outcome :=
  let path := Word.join [' '] (Word.lexAll s.escape raw)
  if path.isEmpty then none
  else
    let dir := s.resolve (s.expand path)
    some
      { lines := [chain ["mkdir -p ".toList ++ dir.toShell, "cd ".toList ++ dir.toShell]]
        state := { s with workdir := some dir } }

/-- Compiles `VOLUME`. -/
def compileVolume (s : State) (raw : Text) : Option Outcome :=
  let dirs := (s.argumentWords raw).filter (!·.isEmpty)
  if dirs = [] then none
  else
    some (.ofLine
      ("mkdir -p ".toList ++ Text.join [' '] (dirs.map fun w => (s.resolve (s.expand w)).toShell)) s)

/-- The user that a word `user:group` names. -/
def userOf (spec : Word) : Word :=
  match spec.cutAt ':' with
  | some (name, _) => .literal name
  | none => spec

/-- Whether a word is a name of the user that runs the script. -/
def isRoot (user : Word) : Bool :=
  user == .literal "root".toList || user == .literal "0".toList

/-- Compiles `USER`. -/
def compileUser (s : State) (raw : Text) : Option Outcome :=
  match Word.lexAll s.escape raw with
  | [] => none
  | spec :: _ =>
    let user := userOf (s.expand spec)
    if user.isEmpty then none
    else
      let shown := user.toShell
      let announce (how : Text) : Text := "# USER ".toList ++ shown ++ ": RUN lines execute ".toList ++ how
      if isRoot user then
        some ⟨[announce "as the invoking user".toList], { s with user := none }⟩
      else
        some ⟨[announce ("via su -s /bin/sh ".toList ++ shown)], { s with user := some user }⟩

end BuildScript.State
