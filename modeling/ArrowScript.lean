import ArrowScript.Text.Ranges
import ArrowScript.Text.Blank
import ArrowScript.Text.Printable
import ArrowScript.Text.Extending
import ArrowScript.Text.Quoted
import ArrowScript.Position
import ArrowScript.Decimal.Binary
import ArrowScript.Decimal.Shortest
import ArrowScript.Decimal.Positional
import ArrowScript.Number
import ArrowScript.Token.Basic
import ArrowScript.Token.Lexeme
import ArrowScript.Token.Stream
import ArrowScript.Operator
import ArrowScript.Expr.Basic
import ArrowScript.Expr.Outline
import ArrowScript.Expr.Pending
import ArrowScript.Expr.Reading
import ArrowScript.Frame
import ArrowScript.Diagnostic
import ArrowScript.Value.Basic
import ArrowScript.Value.Operation
import ArrowScript.Store
import ArrowScript.Event
import ArrowScript.Eval
import ArrowScript.Session
import ArrowScript.CommandLine.Options
import ArrowScript.CommandLine.Program
import ArrowScript.Main
import ArrowScript.Proofs.Store
import ArrowScript.Proofs.Isolation
import ArrowScript.Proofs.Lockstep
import ArrowScript.Proofs.Renaming
import ArrowScript.Proofs.Release
import ArrowScript.Proofs.Grammar
import ArrowScript.Proofs.GrammarSound
import ArrowScript.Proofs.GrammarComplete
import ArrowScript.Proofs.LexicalGrammar
import ArrowScript.Proofs.CorrectPrefix
import ArrowScript.Proofs.Traceback
import ArrowScript.Proofs.NumberText
import ArrowScript.Proofs.Written
import ArrowScript.Proofs.ReadBack
import ArrowScript.Proofs.Cursor
import ArrowScript.Proofs.Tiling
import ArrowScript.Proofs.TreeSpans
import ArrowScript.Proofs.Coherence
import ArrowScript.Proofs.Histories
import ArrowScript.Proofs.Relevance
import ArrowScript.Proofs.Excerpt
import ArrowScript.Proofs.IllegalRuns
import ArrowScript.Proofs.Shell
import ArrowScript.Proofs.Binary64
import ArrowScript.Proofs.Bounds
import ArrowScript.Proofs.Progression
import ArrowScript.Proofs.CleanPrefix
import ArrowScript.Proofs.ReadSteps
import ArrowScript.Proofs.SpanNesting
import ArrowScript.Proofs.MissingOperand
import ArrowScript.Proofs.FullPrograms
import ArrowScript.Proofs.NumberIdentity
import ArrowScript.Proofs.NumberOrder
import ArrowScript.Proofs.Powers
import ArrowScript.Proofs.Refusals
import ArrowScript.Proofs.Outlines
import ArrowScript.Proofs.DecimalRounding
import ArrowScript.Proofs.NumberRoundTrip
