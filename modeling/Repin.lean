import Repin.CommandLine.Arguments
import Repin.CommandLine.Execution
import Repin.CommandLine.Invocation
import Repin.Decision
import Repin.Disk.Basic
import Repin.Disk.Location
import Repin.Disk.Resolve
import Repin.Dockerfile.Document
import Repin.Document.Encoding
import Repin.Document.Sha256
import Repin.Document.Source
import Repin.Error
import Repin.Glob.ByteExpr
import Repin.Glob.Pattern
import Repin.Json.Document
import Repin.Json.Lexeme
import Repin.Json.Value
import Repin.Locate.Candidate
import Repin.Locate.Site
import Repin.Main
import Repin.Patch.Basic
import Repin.Patch.Diff
import Repin.Proofs.Decision
import Repin.Proofs.Disk.Write
import Repin.Proofs.Dockerfile.Document
import Repin.Proofs.Dockerfile.Images
import Repin.Proofs.Dockerfile.Line
import Repin.Proofs.Document.Encoding
import Repin.Proofs.Document.Source
import Repin.Proofs.Except
import Repin.Proofs.Json.Document
import Repin.Proofs.Json.Edit
import Repin.Proofs.Json.Grammar
import Repin.Proofs.Json.Language
import Repin.Proofs.Json.Lexeme
import Repin.Proofs.Json.Patched
import Repin.Proofs.Json.Reading
import Repin.Proofs.Json.Visit
import Repin.Proofs.Locate.Candidate
import Repin.Proofs.Locate.Change
import Repin.Proofs.Locate.Exact
import Repin.Proofs.Locate.Group
import Repin.Proofs.Locate.Order
import Repin.Proofs.Locate.Overlap
import Repin.Proofs.Locate.Selector
import Repin.Proofs.Locate.Survivor
import Repin.Proofs.Locate.Tie
import Repin.Proofs.Patch.Diff
import Repin.Proofs.Patch.Hunk
import Repin.Proofs.Patch.Replay
import Repin.Proofs.Patch.Sequence
import Repin.Proofs.Patch.Splice
import Repin.Proofs.Registry.Lookups
import Repin.Proofs.Report.Severity
import Repin.Proofs.Run.Asking
import Repin.Proofs.Run.Cancellation
import Repin.Proofs.Run.Conduct
import Repin.Proofs.Run.Course
import Repin.Proofs.Run.DryRun
import Repin.Proofs.Run.Ending
import Repin.Proofs.Run.Files
import Repin.Proofs.Run.Forecast
import Repin.Proofs.Run.Gating
import Repin.Proofs.Run.Interference
import Repin.Proofs.Run.Outcome
import Repin.Proofs.Run.Packages
import Repin.Proofs.Run.Pinned
import Repin.Proofs.Run.Purity
import Repin.Proofs.Run.Record
import Repin.Proofs.Run.Step
import Repin.Proofs.Span
import Repin.Proofs.State
import Repin.Proofs.Text.Blank
import Repin.Proofs.Text.Bytes
import Repin.Proofs.Text.Decimal
import Repin.Proofs.Text.Lines
import Repin.Proofs.Text.Newline
import Repin.Proofs.Text.Position
import Repin.Proofs.Text.Split
import Repin.Proofs.Upgrader.Documents
import Repin.Proofs.Upgrader.Explanation
import Repin.Proofs.Upgrader.Folders
import Repin.Proofs.Upgrader.Format
import Repin.Proofs.Upgrader.MonikerPath
import Repin.Proofs.Upgrader.Packages
import Repin.Proofs.Upgrader.Revision
import Repin.Proofs.Upgrader.SecondPass
import Repin.Proofs.Upgrader.Settled
import Repin.Proofs.Version.Cut
import Repin.Proofs.Version.Embedded
import Repin.Proofs.Version.Fault
import Repin.Proofs.Version.Floating
import Repin.Proofs.Version.FloatingLines
import Repin.Proofs.Version.FloatingShape
import Repin.Proofs.Version.Highest
import Repin.Proofs.Version.Image
import Repin.Proofs.Version.ImageRuns
import Repin.Proofs.Version.LineEnding
import Repin.Proofs.Version.Listed
import Repin.Proofs.Version.Moniker
import Repin.Proofs.Version.MonikerItems
import Repin.Proofs.Version.MovedImage
import Repin.Proofs.Version.Numeric
import Repin.Proofs.Version.PinnedImage
import Repin.Proofs.Version.PortableLayout
import Repin.Proofs.Version.PortableList
import Repin.Proofs.Version.Precedence
import Repin.Proofs.Version.Qualifiers
import Repin.Proofs.Version.Ranking
import Repin.Proofs.Version.RuntimeIdentifier
import Repin.Proofs.Version.Semver
import Repin.Proofs.Version.SemverGrammar
import Repin.Proofs.Version.Stopover
import Repin.Proofs.Xml.Node
import Repin.Proofs.Yaml.AppendedLine
import Repin.Proofs.Yaml.Block
import Repin.Proofs.Yaml.BlockCuts
import Repin.Proofs.Yaml.BlockValue
import Repin.Proofs.Yaml.Node
import Repin.Proofs.Yaml.Quoted
import Repin.Proofs.Yaml.Tree
import Repin.Readers
import Repin.Readers.Standard
import Repin.Registry.Digest
import Repin.Report.Basic
import Repin.Report.Instant
import Repin.Report.Json
import Repin.Report.Text
import Repin.Run.Basic
import Repin.Run.Documents
import Repin.Run.Packages
import Repin.Run.Request
import Repin.Run.State
import Repin.Settings
import Repin.Span
import Repin.Text.Blank
import Repin.Text.Bytes
import Repin.Text.Decimal
import Repin.Text.Digit
import Repin.Text.Lines
import Repin.Text.Split
import Repin.Toml.Document
import Repin.Toml.Item
import Repin.Tool.Program
import Repin.Tool.Script
import Repin.Tool.Shell
import Repin.Tool.System
import Repin.Upgrader.Basic
import Repin.Upgrader.Documents
import Repin.Upgrader.MonikerPath
import Repin.Upgrader.Packages
import Repin.Upgrader.Revision
import Repin.Version.Channel
import Repin.Version.Failure
import Repin.Version.Floating
import Repin.Version.Image
import Repin.Version.ManagedRuntime
import Repin.Version.Moniker
import Repin.Version.Numeric
import Repin.Version.RuntimeIdentifier
import Repin.Version.Semver
import Repin.Version.Token
import Repin.Workspace
import Repin.Xml.Char
import Repin.Xml.Document
import Repin.Xml.Node
import Repin.Yaml.Event
import Repin.Yaml.Node
import Repin.Yaml.Scalar
import Repin.Yaml.Token
import Repin.Yaml.Token.Lexer
