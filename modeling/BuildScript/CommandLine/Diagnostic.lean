import BuildScript.CommandLine.Arguments
import BuildScript.Text.Blank

/-!
# Diagnostics

A diagnostic is one line with the name of the command in front. Its colour tells how serious it is. The
script that is written is never coloured.
-/

namespace BuildScript.CommandLine

/-- How serious a diagnostic is. -/
inductive Tone where
  | info
  | warning
  | error
  deriving DecidableEq, Repr

/-- The escape sequence that begins the colour of a tone. -/
def Tone.start : Tone → Text
  | .info => "\x1b[36;1m".toList
  | .warning => "\x1b[33m".toList
  | .error => "\x1b[31;1m".toList

/-- The escape sequence that ends a colour. -/
def toneEnd : Text := "\x1b[0m".toList

/-- A diagnostic as it is printed. -/
def diagnostic (tone : Tone) (coloured : Bool) (message : Text) : Text :=
  let line := "docker2sh: ".toList ++ message
  if coloured then tone.start ++ line ++ toneEnd else line

/-- When diagnostics are coloured: never if `NO_COLOR` is set, else as the option says, else as the
variable says, in letters of either case. -/
def colorMode (noColor : Bool) (option : Option ColorMode) (fromEnv : Option Text) : ColorMode :=
  if noColor then .never
  else
    (option.or (fromEnv.bind fun t => ColorMode.ofText? (Text.lower (Text.trim t)))).getD .auto

end BuildScript.CommandLine
