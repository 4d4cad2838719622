import BuildScript.CommandLine.World
import BuildScript.Main
import BuildScript.Proofs.Posix.Expansion
import BuildScript.Proofs.Posix.Nesting
import BuildScript.Proofs.Posix.Inert
import BuildScript.Proofs.Posix.Quoting
import BuildScript.Proofs.Posix.Fields
import BuildScript.Proofs.Posix.Modifier
import BuildScript.Proofs.Compile.Exports
import BuildScript.Proofs.Posix.Command
import BuildScript.Proofs.Compile.Invariant
import BuildScript.Proofs.Compile.Skeleton
import BuildScript.Proofs.Text.Lines
import BuildScript.Proofs.Dockerfile.Groups
import BuildScript.Proofs.Compile.Trace
import BuildScript.Proofs.Dockerfile.Directive
import BuildScript.Proofs.Dockerfile.LogicalText
import BuildScript.Proofs.Compile.Reprint
import BuildScript.Proofs.Compile.Append
import BuildScript.Proofs.Text.Unbroken
import BuildScript.Proofs.Word.Characters
import BuildScript.Proofs.Url.Unbroken
import BuildScript.Proofs.Compile.Clean
import BuildScript.Proofs.Compile.Rendering
import BuildScript.Proofs.Json.Printed
import BuildScript.Proofs.Posix.SimpleCommand
import BuildScript.Proofs.Compile.Context
import BuildScript.Proofs.Compile.Exec
import BuildScript.Proofs.Compile.Isolation
import BuildScript.Proofs.Posix.Shift
import BuildScript.Proofs.Shell.Scan
import BuildScript.Proofs.Posix.ShellState
import BuildScript.Proofs.Shell.Marks
import BuildScript.Proofs.Shell.Agreement
import BuildScript.Proofs.Shell.Lasting
import BuildScript.Proofs.Path.Components
import BuildScript.Proofs.Compile.Reachable
import BuildScript.Proofs.Compile.Places
import BuildScript.Proofs.Compile.Anchoring
import BuildScript.Proofs.Compile.Frame
import BuildScript.Proofs.Posix.Complete
import BuildScript.Proofs.Compile.Wrapping
import BuildScript.Proofs.Compile.Deliveries
import BuildScript.Proofs.Compile.ContextLine
import BuildScript.Proofs.Compile.Embedded
import BuildScript.Proofs.FileTree
import BuildScript.Proofs.CommandLine.Run
import BuildScript.Proofs.Shell.Words
import BuildScript.Proofs.Shell.Blanks
import BuildScript.Proofs.Compile.RunLine
import BuildScript.Proofs.Word.Reread
import BuildScript.Proofs.Compile.Arguments
import BuildScript.Proofs.Compile.Sources
import BuildScript.Proofs.Compile.SourceValues
import BuildScript.Proofs.Path.Parent
import BuildScript.Proofs.Word.Ends
import BuildScript.Proofs.Compile.Landing
import BuildScript.Proofs.Word.Filling
import BuildScript.Proofs.Compile.Slashes
import BuildScript.Proofs.Compile.Interchange
import BuildScript.Proofs.Word.Cuts
import BuildScript.Proofs.Compile.Users
import BuildScript.Proofs.Posix.Pattern
import BuildScript.Proofs.Posix.PatternQuoting
import BuildScript.Proofs.Compile.SourcePlace
import BuildScript.Proofs.Compile.Bindings
import BuildScript.Proofs.Bytes.Base64
import BuildScript.Proofs.Bytes.Repetitions
import BuildScript.Proofs.Bytes.FixedCode
import BuildScript.Proofs.Bytes.Gzip
import BuildScript.Proofs.Compile.Payload
import BuildScript.Proofs.Script
import BuildScript.Proofs.Compile.WorkingDirectory
import BuildScript.Proofs.Word.Segmented
import BuildScript.Proofs.Word.Canonical
import BuildScript.Proofs.Word.Advance
import BuildScript.Proofs.Word.Separation
