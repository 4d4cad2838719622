import BuildScript.Compile.Embedding
import BuildScript.Url.Basic

/-!
# `COPY` and `ADD`

Both bring sources to a destination. `COPY` takes files and directories of the build context; `ADD` also
fetches URLs and unpacks archives. The outcome is one chain of commands, which makes the directory
first and sets owner and mode last. Embedded files cannot stand in a chain: their lines follow it, and
owner and mode are set after them.
-/

namespace BuildScript

/-- The endings of names of archives that `ADD` unpacks. -/
def archiveEndings : List Text :=
  [".tar", ".tar.gz", ".tgz", ".tar.bz2", ".tbz2", ".tar.xz", ".txz"].map String.toList

/-- What is done with a source. -/
inductive Source where
  | fetched (url : Url)
  | unpacked (w : Word)
  | copied (w : Word)
  deriving DecidableEq, Repr

namespace Source

/-- What `ADD` does with a source, which is decided by its text. A source with references has none yet, and
is copied. -/
def ofAdd (w : Word) : Source :=
  match w.text? with
  | none => .copied w
  | some text =>
    match Url.ofText? text with
    | some url => .fetched url
    | none =>
      if archiveEndings.any (·.isSuffixOf (Text.lower text)) then .unpacked w else .copied w

/-- The URL of a source that is fetched. -/
def url? : Source → Option Url
  | .fetched url => some url
  | _ => none

/-- The path of a source that is unpacked. -/
def archive? : Source → Option Word
  | .unpacked w => some w
  | _ => none

/-- The path of a source that is copied. -/
def copied? : Source → Option Word
  | .copied w => some w
  | _ => none

end Source

namespace Options

/-- Where a source is when the script runs: in the build context, unless its path begins with a slash. -/
def locate (o : Options) (source : Word) : Word :=
  if source.startsWith ['/'] then source
  else
    (match o.contextDir with
      | some dir => .literal (Text.dropTrailing '/' dir)
      | none => .var contextVariable .nil) ++ .literal ['/'] ++ source

/-- Whether the place of a source is told by `contextVariable`. -/
def usesContext (o : Options) (source : Word) : Bool :=
  o.contextDir.isNone && !source.startsWith ['/']

end Options

namespace Delivery

/-- The command that makes the directory. -/
def makeCommand (d : Delivery) (unpacks : Bool) : Text :=
  "mkdir -p ".toList ++ d.directory unpacks

/-- The command that copies sources, if there are any. -/
def copyCommand (d : Delivery) (o : Options) (sources : List Word) : List Text :=
  if sources = [] then []
  else
    ["cp -R ".toList ++ Text.join [' '] (sources.map fun w => (o.locate w).toShellGlob) ++
      ' ' :: d.dest.toShell]

/-- The command that fetches a URL. -/
def fetchCommand (d : Delivery) (unpacks : Bool) (url : Url) : Text :=
  let target := if unpacks then d.inside url.fileName else d.target url.fileName
  "wget -O ".toList ++ target.toShell ++ ' ' :: Shell.quote url.render

/-- The command that unpacks an archive. -/
def unpackCommand (d : Delivery) (o : Options) (archive : Word) : Text :=
  "tar -xf ".toList ++ (o.locate archive).toShellGlob ++ " -C ".toList ++ d.dest.toShell

/-- The lines of an outcome: the chain of commands with owner and mode at its end, or, if files are
embedded, the chain, the files, and a chain that sets owner and mode. -/
def assemble (d : Delivery) (commands : List Text) (embedded : List (List Text)) : List Text :=
  if embedded = [] then [chain (commands ++ d.ownership)]
  else
    chain commands :: embedded.flatten ++
      (if d.ownership = [] then [] else [chain d.ownership])

/-- Compiles sources and their destination. -/
def compile (d : Delivery) (o : Options) (files : FileView) (s : State) (sources : List Source) :
    Outcome :=
  let archives := sources.filterMap Source.archive?
  let unpacks := !archives.isEmpty
  let ownFiles := (sources.filterMap Source.copied?).map fun w => (w, d.embedded? o files w)
  let embedded := ownFiles.filterMap (·.2)
  let copied := (ownFiles.filter (·.2.isNone)).map (·.1)
  let commands :=
    d.makeCommand unpacks :: d.copyCommand o copied ++
      (sources.filterMap Source.url?).map (d.fetchCommand unpacks) ++
      archives.map (d.unpackCommand o)
  { lines := d.assemble commands embedded
    state := { s with usesContext := s.usesContext || (copied ++ archives).any o.usesContext } }

end Delivery

namespace State

/-- Compiles `COPY` or `ADD`, which differ in what they do with a source. Sources from another build
stage are not there when the script runs. -/
def compileDelivery (s : State) (o : Options) (files : FileView) (kind : Word → Source) (raw : Text) :
    Option Outcome :=
  match s.delivery? raw with
  | none => none
  | some d => if d.flags.fromStage then none else some (d.compile o files s (d.sources.map kind))

end State

end BuildScript
