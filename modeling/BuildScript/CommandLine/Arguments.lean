import BuildScript.Text.Basic

/-!
# Arguments of the command

The command takes one Dockerfile and options, in any order. An option with a value takes it from the
same argument, after `=` or, for a letter, directly, or else from the next argument, unless that looks
like an option. Letters may share a hyphen. After `--` nothing is an option. No option may be given
twice. `--version` and `--help` end the reading where they stand, so that faults before them count and
faults after them do not.
-/

namespace BuildScript.CommandLine

/-- When diagnostics are coloured. -/
inductive ColorMode where
  | auto
  | always
  | never
  deriving DecidableEq, Repr

namespace ColorMode

/-- A mode as it is written. -/
def name : ColorMode → Text
  | .auto => "auto".toList
  | .always => "always".toList
  | .never => "never".toList

/-- The mode that a text names. -/
def ofText? (t : Text) : Option ColorMode :=
  [auto, always, never].find? (·.name == t)

end ColorMode

/-- The options without a value. -/
inductive Flag where
  | json
  | embed
  | verbose
  deriving DecidableEq, Repr

/-- The options with a value. -/
inductive Setting where
  | output
  | shell
  | context
  | color
  deriving DecidableEq, Repr

/-- What an option is. -/
inductive Switch where
  | flag (f : Flag)
  | setting (s : Setting)
  | help
  | version
  deriving DecidableEq, Repr

namespace Switch

/-- The options by name. -/
def names : List (Text × Switch) :=
  [("output", .setting .output), ("json", .flag .json), ("shell", .setting .shell),
    ("context", .setting .context), ("embed", .flag .embed), ("verbose", .flag .verbose),
    ("color", .setting .color), ("help", .help), ("version", .version)].map
    fun (name, switch) => (name.toList, switch)

/-- The options by letter. -/
def letters : List (Char × Switch) :=
  [('o', .setting .output), ('j', .flag .json), ('v', .flag .verbose), ('h', .help),
    ('V', .version)]

end Switch

/-- What the arguments choose. -/
structure Arguments where
  /-- The path of the Dockerfile; a hyphen is standard input. -/
  dockerfile : Text
  output : Option Text
  shell : Option Text
  context : Option Text
  color : Option ColorMode
  json : Bool
  embed : Bool
  verbose : Bool
  deriving DecidableEq, Repr

/-- What the command is asked to do. -/
inductive Request where
  | run (a : Arguments)
  | help
  | version
  deriving DecidableEq, Repr

/-- Why arguments are not understood. -/
inductive UsageError where
  | unknown (arg : Text)
  | repeated (option : Text)
  | needsValue (option : Text)
  | takesNoValue (option : Text)
  | badValue (value : Text)
  | noDockerfile
  deriving DecidableEq, Repr

namespace UsageError

/-- The error in words. -/
def message : UsageError → Text
  | .unknown arg => "unexpected argument '".toList ++ arg ++ "' found".toList
  | .repeated option => "the option '".toList ++ option ++ "' cannot be used multiple times".toList
  | .needsValue option => "a value is required for '".toList ++ option ++ "'".toList
  | .takesNoValue option => "the option '".toList ++ option ++ "' takes no value".toList
  | .badValue value => "invalid value '".toList ++ value ++ "'".toList
  | .noDockerfile => "the following required argument was not provided: <DOCKERFILE>".toList

end UsageError

/-- What the arguments read so far choose. -/
structure Draft where
  dockerfile : Option Text := none
  values : List (Setting × Text) := []
  flags : List Flag := []
  deriving DecidableEq, Repr

namespace Draft

/-- Takes up an argument that is no option. -/
def setDockerfile (d : Draft) (path : Text) : Except UsageError Draft :=
  if d.dockerfile.isSome then .error (.unknown path)
  else if path = [] then .error (.badValue path)
  else .ok { d with dockerfile := some path }

/-- Takes up a flag. -/
def setFlag (d : Draft) (option : Text) (f : Flag) : Except UsageError Draft :=
  if d.flags.contains f then .error (.repeated option) else .ok { d with flags := f :: d.flags }

/-- Whether an option takes a value. -/
def accepts (s : Setting) (value : Text) : Bool :=
  match s with
  | .output => !value.isEmpty
  | .color => (ColorMode.ofText? value).isSome
  | .shell | .context => true

/-- Takes up an option with its value. -/
def setValue (d : Draft) (option : Text) (s : Setting) (value : Text) : Except UsageError Draft :=
  if (d.values.lookup s).isSome then .error (.repeated option)
  else if accepts s value then .ok { d with values := (s, value) :: d.values }
  else .error (.badValue value)

/-- The arguments, once all are read. -/
def finish (d : Draft) : Except UsageError Request :=
  match d.dockerfile with
  | none => .error .noDockerfile
  | some path =>
    .ok (.run
      { dockerfile := path
        output := d.values.lookup .output
        shell := d.values.lookup .shell
        context := d.values.lookup .context
        color := (d.values.lookup .color).bind ColorMode.ofText?
        json := d.flags.contains .json
        embed := d.flags.contains .embed
        verbose := d.flags.contains .verbose })

end Draft

/-- How an argument that holds options ends: it is complete, its last option takes the next argument as
its value, or the reading ends. -/
inductive Ending where
  | complete (d : Draft)
  | wants (d : Draft) (option : Text) (s : Setting)
  | done (r : Request)
  deriving DecidableEq, Repr

/-- Reads the letters behind a hyphen. -/
def readLetters (d : Draft) : Text → Except UsageError Ending
  | [] => .ok (.complete d)
  | c :: rest =>
    let option := ['-', c]
    match Switch.letters.lookup c with
    | none => .error (.unknown option)
    | some .help => .ok (.done .help)
    | some .version => .ok (.done .version)
    | some (.flag f) => do readLetters (← d.setFlag option f) rest
    | some (.setting s) =>
      match rest with
      | [] => .ok (.wants d option s)
      | '=' :: value => do pure (.complete (← d.setValue option s value))
      | value => do pure (.complete (← d.setValue option s value))

/-- Reads the name behind two hyphens, with its value if there is one. -/
def readName (d : Draft) (t : Text) : Except UsageError Ending :=
  let (name, value) :=
    match Text.cutAt '=' t with
    | some (name, value) => (name, some value)
    | none => (t, none)
  let option := '-' :: '-' :: name
  match Switch.names.lookup name, value with
  | none, _ => .error (.unknown option)
  | some (.setting s), none => .ok (.wants d option s)
  | some (.setting s), some value => do pure (.complete (← d.setValue option s value))
  | some _, some _ => .error (.takesNoValue option)
  | some .help, none => .ok (.done .help)
  | some .version, none => .ok (.done .version)
  | some (.flag f), none => do pure (.complete (← d.setFlag option f))

/-- Whether an argument can be the value of the option before it. -/
def isValue (arg : Text) : Bool := arg.head? != some '-' || arg == ['-']

/-- Reads arguments none of which is an option. -/
def readPaths (d : Draft) : List Text → Except UsageError Request
  | [] => d.finish
  | arg :: rest => do readPaths (← d.setDockerfile arg) rest

/-- Reads arguments after those that `d` stands for. -/
def readFrom (d : Draft) (args : List Text) : Except UsageError Request :=
  match args with
  | [] => d.finish
  | arg :: rest =>
    let ending : Except UsageError Ending :=
      match arg with
      | '-' :: '-' :: name => readName d name
      | '-' :: c :: letters => readLetters d (c :: letters)
      | _ => do pure (.complete (← d.setDockerfile arg))
    if arg = ['-', '-'] then readPaths d rest
    else
      match ending with
      | .error e => .error e
      | .ok (.done r) => .ok r
      | .ok (.complete d) => readFrom d rest
      | .ok (.wants d option s) =>
        match rest with
        | [] => .error (.needsValue option)
        | value :: rest =>
          if isValue value then
            match d.setValue option s value with
            | .error e => .error e
            | .ok d => readFrom d rest
          else .error (.needsValue option)

/-- Reads the arguments of the command. -/
def readArguments (args : List Text) : Except UsageError Request := readFrom {} args

end BuildScript.CommandLine
