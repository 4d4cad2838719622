import BuildScript.Dockerfile.Instruction
import BuildScript.Compile.Comment
import BuildScript.Compile.Copy
import BuildScript.Compile.Place
import BuildScript.Compile.Run
import BuildScript.Compile.Variables

/-!
# Compiling a Dockerfile

The instructions are compiled in order, each in the state that those before it left (`trace`). An
instruction without an outcome leaves a comment that shows it. The script is the statements of all
instructions behind a prologue, which names the build context if a statement refers to it.
-/

namespace BuildScript

namespace State

/-- Compiles one instruction. -/
def compile (s : State) (o : Options) (files : FileView) (i : Instruction) : Option Outcome :=
  match i.keyword with
  | .from => s.compileFrom i.arguments
  | .run => s.compileRun i.arguments
  | .copy => s.compileDelivery o files .copied i.arguments
  | .add => s.compileDelivery o files .ofAdd i.arguments
  | .workdir => s.compileWorkdir i.arguments
  | .env => s.compileEnv i.arguments
  | .arg => s.compileArg i.arguments
  | .user => s.compileUser i.arguments
  | .label | .maintainer => some (s.compileMetadata i.keyword i.arguments)
  | .expose => some (s.compileExpose i.arguments)
  | .volume => s.compileVolume i.arguments
  | .cmd | .entrypoint => s.compileStart i.keyword i.arguments
  | .unknown => none

end State

/-- One instruction of a compiled Dockerfile: its lines, if it has an outcome, and the state after it. -/
structure Step where
  instruction : Instruction
  lines : Option (List Text)
  state : State
  deriving Repr

namespace Step

/-- The comment that stands for an instruction without an outcome. -/
def skippedComment (i : Instruction) : Text := "# skipped: ".toList ++ i.source

/-- The statements that an instruction puts into the script. -/
def statements (step : Step) : List Text :=
  step.lines.getD [skippedComment step.instruction]

/-- Compiles one instruction in a state. -/
def ofInstruction (o : Options) (files : FileView) (s : State) (i : Instruction) : Step :=
  match s.compile o files i with
  | some outcome => ⟨i, some outcome.lines, outcome.state⟩
  | none => ⟨i, none, s⟩

end Step

/-- Compiles instructions in order, from a state on. -/
def traceFrom (o : Options) (files : FileView) (s : State) : List Instruction → List Step
  | [] => []
  | i :: rest =>
    let step := Step.ofInstruction o files s i
    step :: traceFrom o files step.state rest

/-- A Dockerfile compiled instruction by instruction. -/
def trace (o : Options) (files : FileView) (input : Text) : List Step :=
  traceFrom o files (.initial (escapeOf input)) (instructions input)

/-- The line that keeps the place where the script is started as the build context. -/
def contextLine : Text :=
  contextVariable ++ '=' :: '"' :: Shell.reference contextVariable ":-$PWD".toList ++ ['"']

/-- The prologue of a compiled script; `usesContext` tells whether a statement refers to the build context. -/
def prologue (o : Options) (usesContext : Bool) : Script :=
  let named :=
    match o.sourceName with
    | some name => (Script.new o.shell).naming name
    | none => Script.new o.shell
  if usesContext then named.addPrologue contextLine else named

/-- The script that a Dockerfile compiles to. -/
def compile (o : Options) (files : FileView) (input : Text) : Script :=
  let steps := trace o files input
  let usesContext := (steps.getLast?.map (·.state.usesContext)).getD false
  { (prologue o usesContext).extend (steps.flatMap Step.statements) with
    skipped := (steps.filter (·.lines.isNone)).length }

end BuildScript
