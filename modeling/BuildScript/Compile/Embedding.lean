import BuildScript.Compile.Delivery

/-!
# Embedded files

A regular file of the build context can be written into the script: packed, in base 64, on lines of 76
characters between a command that unpacks it and a line that ends the text. That line has a character
outside the alphabet of base 64, so no line of the contents is mistaken for it.

Packing is the work of a library, and unpacking that of a command that the script runs. Nothing here
depends on how they do it.
-/

namespace BuildScript

/-- The regular files that can be read, by path. -/
abbrev FileView := Text → Option Bytes

/-- The line that ends the text of an embedded file. -/
def embedEnd : Text := "DOCKER2SH_EOF".toList

/-- The start of the command that unpacks an embedded file. -/
def embedStart : Text := "base64 -d <<'DOCKER2SH_EOF' | gunzip -c > ".toList

/-- The contents of an embedded file as lines of at most 76 characters. -/
def embedBody (pack : Bytes → Bytes) (bytes : Bytes) : List Text :=
  chunks 75 (Base64.encode (pack bytes))

/-- The lines that write a file to `target`, which is one shell word. -/
def embedLines (pack : Bytes → Bytes) (target : Text) (bytes : Bytes) : List Text :=
  (embedStart ++ target) :: embedBody pack bytes ++ [embedEnd]

/-- The bytes that lines of an embedded file hold. -/
def embeddedBytes? (body : List Text) (unpack? : Bytes → Option Bytes := Gzip.unpack?) :
    Option Bytes :=
  Base64.decode? body.flatten >>= unpack?

/-- The path of a source where the script is made. -/
def sourcePath (contextDir : Option Text) (source : Text) : Text :=
  Path.below (contextDir.getD ['.']) source

/-- The path of a source that may be embedded: one without references and pattern characters. -/
def embedPath? (o : Options) (source : Word) : Option Text :=
  if o.embed then
    source.text?.bind fun text =>
      if Shell.hasGlob text then none else some (sourcePath o.contextDir text)
  else none

/-- The lines that stand for a source, if it is embedded. -/
def Delivery.embedded? (d : Delivery) (o : Options) (files : FileView) (source : Word) :
    Option (List Text) := do
  let path ← embedPath? o source
  let name ← Path.fileName? path
  let bytes ← files path
  pure (embedLines o.pack (d.target name).toShell bytes)

end BuildScript
