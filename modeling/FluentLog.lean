import FluentLog.Chain.Plan
import FluentLog.Chain.Span
import FluentLog.Chain.Event
import FluentLog.Code.Comment
import FluentLog.Code.Walk
import FluentLog.Command.Execution
import FluentLog.Diff.Script
import FluentLog.Diff.Summary
import FluentLog.Document
import FluentLog.Expression.Operand
import FluentLog.Files
import FluentLog.Glob
import FluentLog.Main
import FluentLog.Message.Fragment
import FluentLog.Proofs.Chain.CallBytes
import FluentLog.Proofs.Chain.Completion
import FluentLog.Proofs.Chain.Matching
import FluentLog.Proofs.Code.Scanning
import FluentLog.Run
import FluentLog.Settings
import FluentLog.Text
import FluentLog.Yaml.Scalar
import FluentLog.Yaml.Head
import FluentLog.Yaml.Printer
import FluentLog.Yaml.Reader
import FluentLog.Proofs.Chain.Replacement
import FluentLog.Proofs.Chain.SupplierCalls
import FluentLog.Proofs.Chain.Locating
import FluentLog.Proofs.Chain.Frame
import FluentLog.Proofs.Expression.Literal
import FluentLog.Proofs.Message.Formatter
import FluentLog.Proofs.Chain.Filling
import FluentLog.Proofs.Code.Inert
import FluentLog.Proofs.Message.Concatenation
import FluentLog.Proofs.Expression.Concatenation
import FluentLog.Proofs.Chain.Passing
import FluentLog.Proofs.Chain.SingleCall
import FluentLog.Proofs.Chain.Meaning
import FluentLog.Proofs.Chain.Ending
import FluentLog.Proofs.Chain.Locality
import FluentLog.Proofs.Chain.Nesting
import FluentLog.Proofs.Chain.Renewal
import FluentLog.Proofs.Chain.Idempotence
import FluentLog.Proofs.Message.Pattern
import FluentLog.Proofs.Code.CodeBytes
import FluentLog.Proofs.Chain.Candidates
import FluentLog.Proofs.Code.Tidy
import FluentLog.Proofs.Expression.Closed
import FluentLog.Proofs.Chain.Items
import FluentLog.Proofs.Chain.ItemSearch
import FluentLog.Proofs.Chain.Structure
import FluentLog.Proofs.Expression.Token
import FluentLog.Proofs.Expression.Supplier
import FluentLog.Proofs.Expression.Body
import FluentLog.Proofs.Expression.Reading
import FluentLog.Proofs.Chain.Evaluation
import FluentLog.Proofs.Chain.OuterCalls
import FluentLog.Proofs.Chain.Shift
import FluentLog.Proofs.Chain.Stopping
import FluentLog.Proofs.Chain.Statements
import FluentLog.Proofs.Code.Lexical
import FluentLog.Proofs.Chain.Elements
import FluentLog.Proofs.Text.Utf8
import FluentLog.Proofs.Chain.Passage
import FluentLog.Proofs.Chain.Slices
import FluentLog.Proofs.Code.Quoted
import FluentLog.Proofs.Code.Arrowheads
import FluentLog.Proofs.Expression.Shedding
import FluentLog.Proofs.Chain.Difference
import FluentLog.Proofs.Chain.CallChain
import FluentLog.Proofs.Diff.Script
import FluentLog.Proofs.Files.Path
import FluentLog.Proofs.Files.Tree
import FluentLog.Proofs.Files.Selection
import FluentLog.Proofs.Run
import FluentLog.Proofs.Text.Digits
import FluentLog.Proofs.Document
import FluentLog.Proofs.Settings
import FluentLog.Proofs.Yaml.Head
import FluentLog.Proofs.Yaml.Scalar.Plain
import FluentLog.Proofs.Yaml.Scalar.Quoted
import FluentLog.Proofs.Yaml.Scalar.Block
import FluentLog.Proofs.Yaml.Leaf
import FluentLog.Proofs.Yaml.Reader
import FluentLog.Proofs.Yaml.Printer
import FluentLog.Proofs.Files.Writing
import FluentLog.Proofs.Expression.Cuts
import FluentLog.Proofs.Expression.Brackets
import FluentLog.Proofs.Expression.Block
import FluentLog.Proofs.Expression.Parts
import FluentLog.Proofs.Chain.Bound
import FluentLog.Proofs.Chain.Contributions
import FluentLog.Proofs.Expression.TwoPasses
import FluentLog.Proofs.Message.Stream
import FluentLog.Proofs.Code.Literal
import FluentLog.Proofs.Diff.Unified
import FluentLog.Proofs.Code.Comment
import FluentLog.Proofs.Code.Restart
import FluentLog.Proofs.Expression.Spacing
import FluentLog.Proofs.Message.Template
import FluentLog.Proofs.Text.Blank
