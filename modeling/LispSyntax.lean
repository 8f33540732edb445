import LispSyntax.Position
import LispSyntax.Span
import LispSyntax.Quote
import LispSyntax.FailureKind
import LispSyntax.Node.Basic
import LispSyntax.Node.Equality
import LispSyntax.Text.Bytes
import LispSyntax.Text.Escape
import LispSyntax.Grammar.Program
import LispSyntax.Grammar.Reach
import LispSyntax.Read
import LispSyntax.Json.Nesting
import LispSyntax.Json.Parser
import LispSyntax.Document.Decode
import LispSyntax.Document.Encode
import LispSyntax.Node.Printer
import LispSyntax.Main
import LispSyntax.Proofs.Derivation
import LispSyntax.Proofs.Behind
import LispSyntax.Proofs.Dispatch
import LispSyntax.Proofs.Unambiguity
import LispSyntax.Proofs.Tokens
import LispSyntax.Proofs.Chain
import LispSyntax.Proofs.Fragment
import LispSyntax.Proofs.Outcomes
import LispSyntax.Proofs.Split
import LispSyntax.Proofs.Places
import LispSyntax.Proofs.Layout
import LispSyntax.Proofs.Acceptance
import LispSyntax.Proofs.Cut
import LispSyntax.Proofs.Completion
import LispSyntax.Proofs.Alone
import LispSyntax.Proofs.RoundTrip
import LispSyntax.Proofs.CorrectPrefix
import LispSyntax.Proofs.ErrorPlace
import LispSyntax.Proofs.Tiling
import LispSyntax.Proofs.Slice
import LispSyntax.Proofs.DepthLimit
import LispSyntax.Proofs.Concatenation
import LispSyntax.Proofs.JsonTokens
import LispSyntax.Proofs.JsonText
import LispSyntax.Proofs.JsonNesting
import LispSyntax.Proofs.WellFormed
import LispSyntax.Proofs.DocumentText
import LispSyntax.Proofs.DocumentValue
import LispSyntax.Proofs.Scanning
import LispSyntax.Proofs.ErrorKinds
import LispSyntax.Proofs.Insertion
import LispSyntax.Proofs.PrintedProgram
import LispSyntax.Proofs.Lookups
import LispSyntax.Proofs.Agreement
import LispSyntax.Proofs.DocumentSchema
import LispSyntax.Proofs.Echo
import LispSyntax.Proofs.Alternation
import LispSyntax.Proofs.Quotation
import LispSyntax.Proofs.PathText
import LispSyntax.Proofs.FirstFault
import LispSyntax.Proofs.JsonDerivation
import LispSyntax.Proofs.JsonReading
import LispSyntax.Proofs.BracketGuard
import LispSyntax.Proofs.Truncation
import LispSyntax.Proofs.PrintedSlice
import LispSyntax.Proofs.History
import LispSyntax.Proofs.SnippetWindow
import LispSyntax.Proofs.LongestRun
import LispSyntax.Proofs.Repetition
import LispSyntax.Proofs.Calls
