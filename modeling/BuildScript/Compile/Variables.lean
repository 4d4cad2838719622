import BuildScript.Compile.Outcome
import BuildScript.Word.Lexer

/-!
# `ENV` and `ARG`

`ENV` exports values and records them for the instructions after it. All values of one instruction are
expanded in the state before it. `ARG` exports a default that the environment of the script overrides,
and records nothing.
-/

namespace BuildScript

/-- A name and a value. -/
abbrev Binding := Text × Word

namespace State

/-- The bindings of words `NAME=value`. -/
def bindings? : List Word → Option (List Binding)
  | [] => some []
  | w :: ws =>
    match w.cutAt '=' with
    | some (name, value) =>
      if isName name then (bindings? ws).map ((name, value) :: ·) else none
    | none => none

/-- The bindings of an `ENV` argument: words `NAME=value`, or one name and its value, which is the rest of
the argument with its words joined by single spaces. -/
def envBindings? (escape : Char) (raw : Text) : Option (List Binding) :=
  let (first, rest) := Text.beforeBlank raw
  if first = [] then none
  else if '=' ∈ first then bindings? (Word.lexAll escape raw)
  else
    let rest := Text.trim rest
    if isName first ∧ rest ≠ [] then
      some [(first, Word.join [' '] (Word.lexAll escape rest))]
    else none

/-- The line that exports a value. -/
def exportLine (name : Text) (value : Word) : Text :=
  "export ".toList ++ name ++ '=' :: value.toShell

/-- Compiles `ENV`. -/
def compileEnv (s : State) (raw : Text) : Option Outcome :=
  (envBindings? s.escape raw).map fun bindings =>
    let expanded := bindings.map fun (name, value) => (name, s.expand value)
    { lines := expanded.map fun (name, value) => exportLine name value
      state :=
        { s with env := expanded.foldl (fun env (name, value) => env.set name value) s.env } }

/-- The line of one word of `ARG`: a name, or a name and a default. -/
def argLine? (s : State) (w : Word) : Option Text :=
  match w.cutAt '=' with
  | some (name, value) =>
    if isName name then
      some ("export ".toList ++ name ++ '=' :: '"' ::
        Shell.reference name (Choice.default.operator ++ (s.expand value).toDoubleQuoted) ++ ['"'])
    else none
  | none =>
    match w.text? with
    | some name => if isName name then some ("export ".toList ++ name) else none
    | none => none

/-- Compiles `ARG`. -/
def compileArg (s : State) (raw : Text) : Option Outcome :=
  match (Word.lexAll s.escape raw).mapM s.argLine? with
  | none | some [] => none
  | some lines => some ⟨lines, s⟩

end State

end BuildScript
