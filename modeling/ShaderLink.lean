import ShaderLink.Text.Blank
import ShaderLink.Text.WordChar
import ShaderLink.Text.Lines
import ShaderLink.Text.Numeral
import ShaderLink.Text.ShellWords
import ShaderLink.Table
import ShaderLink.Number.Rounding
import ShaderLink.Number.Decimal
import ShaderLink.Number.Binary32
import ShaderLink.Number.Shortest
import ShaderLink.Json.Value
import ShaderLink.Stage
import ShaderLink.Constant.Table
import ShaderLink.Settings.Json
import ShaderLink.Settings.Assignments
import ShaderLink.Source.Spacing
import ShaderLink.Source.Comment
import ShaderLink.Source.Condition
import ShaderLink.Unit.Basic
import ShaderLink.Program.Basic
import ShaderLink.Asset.FileTree
import ShaderLink.Build
import ShaderLink.Main
import ShaderLink.Proofs.Lists
import ShaderLink.Proofs.Link.Listing
import ShaderLink.Proofs.Link.Ceiling
import ShaderLink.Proofs.Link.Walk
import ShaderLink.Proofs.Link.Dependencies
import ShaderLink.Proofs.Link.Versions
import ShaderLink.Proofs.Literal.Cut
import ShaderLink.Proofs.Text.Fields
import ShaderLink.Proofs.Literal.Replacing
import ShaderLink.Proofs.Literal.Naming
import ShaderLink.Proofs.Literal.Sharing
import ShaderLink.Proofs.Table
import ShaderLink.Proofs.Constant.Table
import ShaderLink.Proofs.Unit.Constants
import ShaderLink.Proofs.Program.Body
import ShaderLink.Proofs.Program.Resharing
import ShaderLink.Proofs.Program.Layout
import ShaderLink.Proofs.Source.Blocks
import ShaderLink.Proofs.Source.Decision
import ShaderLink.Proofs.Unit.Failures
import ShaderLink.Proofs.Unit.Inclusions
import ShaderLink.Proofs.Link.Cycles
import ShaderLink.Proofs.Number.Decimal
import ShaderLink.Proofs.Number.ReadBack
import ShaderLink.Proofs.Literal.Minting
import ShaderLink.Proofs.Program.Capture
import ShaderLink.Proofs.Link.Violations
import ShaderLink.Proofs.Link.Steps
import ShaderLink.Proofs.Unit.Script
import ShaderLink.Proofs.Text.Lines
import ShaderLink.Proofs.Text.Words
import ShaderLink.Proofs.Source.Keywords
import ShaderLink.Proofs.Source.Spacing
import ShaderLink.Proofs.Source.Outline
import ShaderLink.Proofs.Source.Alike
import ShaderLink.Proofs.Source.StripOrder
import ShaderLink.Proofs.Link.Locality
import ShaderLink.Proofs.Source.LineEnds
import ShaderLink.Proofs.Unit.Overrides
import ShaderLink.Proofs.Number.Overflow
import ShaderLink.Proofs.Number.Notation
import ShaderLink.Proofs.Settings.Loading
import ShaderLink.Proofs.Program.Initializers
import ShaderLink.Proofs.Source.Faults
import ShaderLink.Proofs.Source.Declarations
import ShaderLink.Proofs.Unit.Spans
import ShaderLink.Proofs.Literal.Pool
import ShaderLink.Proofs.Source.Unmarked
import ShaderLink.Proofs.Source.CommentScan
import ShaderLink.Proofs.Literal.Longest
import ShaderLink.Proofs.Literal.Sites
import ShaderLink.Proofs.Literal.SinglePass
import ShaderLink.Proofs.Source.Marks
import ShaderLink.Proofs.Source.Respacing
import ShaderLink.Proofs.Source.Condensing
import ShaderLink.Proofs.Program.Runs
import ShaderLink.Proofs.Constant.Reading
import ShaderLink.Proofs.Unit.Redeclaring
import ShaderLink.Proofs.Settings.Maps
import ShaderLink.Proofs.Settings.Lines
import ShaderLink.Proofs.Unit.Merging
import ShaderLink.Proofs.Text.Clumps
import ShaderLink.Proofs.Unit.Gluing
import ShaderLink.Proofs.Text.Octets
import ShaderLink.Proofs.Source.ByteScan
import ShaderLink.Proofs.Literal.Offsets
import ShaderLink.Proofs.Unit.Exhaustion
import ShaderLink.Proofs.Unit.Cursor
import ShaderLink.Proofs.Text.Pattern
import ShaderLink.Proofs.Source.Recognition
import ShaderLink.Proofs.CommandLine
import ShaderLink.Proofs.Source.Nesting
import ShaderLink.Proofs.Constant.Index
