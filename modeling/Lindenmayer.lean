import Lindenmayer.CommandLine
import Lindenmayer.Console
import Lindenmayer.Decimal.Dyadic
import Lindenmayer.Decimal.Notation
import Lindenmayer.Decimal.Reading
import Lindenmayer.Decimal.Shortest
import Lindenmayer.Evaluation.Arithmetic
import Lindenmayer.Evaluation.Basic
import Lindenmayer.Evaluation.Error
import Lindenmayer.Evaluation.Folding
import Lindenmayer.Main
import Lindenmayer.Program.Assignments
import Lindenmayer.Program.Build
import Lindenmayer.Program.Interpreter
import Lindenmayer.Program.Session
import Lindenmayer.Program.Validation
import Lindenmayer.Proofs.Acceptance
import Lindenmayer.Proofs.Bare
import Lindenmayer.Proofs.Brackets
import Lindenmayer.Proofs.Calls
import Lindenmayer.Proofs.Chains
import Lindenmayer.Proofs.CharReader
import Lindenmayer.Proofs.Composition
import Lindenmayer.Proofs.Content
import Lindenmayer.Proofs.Copies
import Lindenmayer.Proofs.Decimals
import Lindenmayer.Proofs.Definitions
import Lindenmayer.Proofs.Descent
import Lindenmayer.Proofs.Doubles
import Lindenmayer.Proofs.Drawing
import Lindenmayer.Proofs.Editing
import Lindenmayer.Proofs.Ending
import Lindenmayer.Proofs.Environment
import Lindenmayer.Proofs.Evaluation
import Lindenmayer.Proofs.ExactIntegers
import Lindenmayer.Proofs.Exchange
import Lindenmayer.Proofs.Expressions
import Lindenmayer.Proofs.Findings
import Lindenmayer.Proofs.Fixation
import Lindenmayer.Proofs.Folded
import Lindenmayer.Proofs.FoldedText
import Lindenmayer.Proofs.Folding
import Lindenmayer.Proofs.Generation
import Lindenmayer.Proofs.Globals
import Lindenmayer.Proofs.Grafting
import Lindenmayer.Proofs.Grammar
import Lindenmayer.Proofs.Growth
import Lindenmayer.Proofs.InStep
import Lindenmayer.Proofs.Intervals
import Lindenmayer.Proofs.Juxtaposition
import Lindenmayer.Proofs.Leftmost
import Lindenmayer.Proofs.Lexemes
import Lindenmayer.Proofs.Lines
import Lindenmayer.Proofs.Links
import Lindenmayer.Proofs.Listing
import Lindenmayer.Proofs.Literals
import Lindenmayer.Proofs.Lookahead
import Lindenmayer.Proofs.Lossless
import Lindenmayer.Proofs.Meaning
import Lindenmayer.Proofs.Nesting
import Lindenmayer.Proofs.NumberTexts
import Lindenmayer.Proofs.NumberTokens
import Lindenmayer.Proofs.OnePass
import Lindenmayer.Proofs.Operands
import Lindenmayer.Proofs.Outline
import Lindenmayer.Proofs.ParameterLists
import Lindenmayer.Proofs.Parentheses
import Lindenmayer.Proofs.Patterns
import Lindenmayer.Proofs.Placeholders
import Lindenmayer.Proofs.Places
import Lindenmayer.Proofs.Planting
import Lindenmayer.Proofs.Progress
import Lindenmayer.Proofs.Reachable
import Lindenmayer.Proofs.Readers
import Lindenmayer.Proofs.Reading
import Lindenmayer.Proofs.Rebuild
import Lindenmayer.Proofs.Replay
import Lindenmayer.Proofs.Rereading
import Lindenmayer.Proofs.Resolution
import Lindenmayer.Proofs.RoundTrip
import Lindenmayer.Proofs.Rounding
import Lindenmayer.Proofs.ScopeTree
import Lindenmayer.Proofs.Scoping
import Lindenmayer.Proofs.Shadowing
import Lindenmayer.Proofs.Shape
import Lindenmayer.Proofs.Shifting
import Lindenmayer.Proofs.ShuntingYard
import Lindenmayer.Proofs.Sowing
import Lindenmayer.Proofs.Spelling
import Lindenmayer.Proofs.Stable
import Lindenmayer.Proofs.StaticTypes
import Lindenmayer.Proofs.Symbols
import Lindenmayer.Proofs.Transcripts
import Lindenmayer.Proofs.Traversal
import Lindenmayer.Proofs.Validation
import Lindenmayer.Proofs.Verbatim
import Lindenmayer.Proofs.Visits
import Lindenmayer.Proofs.Walks
import Lindenmayer.Proofs.WellWritten
import Lindenmayer.Region
import Lindenmayer.Report.CodeMap
import Lindenmayer.Report.Diagnostic
import Lindenmayer.Report.Rendering
import Lindenmayer.Rewriting.RandomSource
import Lindenmayer.Rewriting.Rule
import Lindenmayer.Rewriting.System
import Lindenmayer.Scopes.Basic
import Lindenmayer.Scopes.Error
import Lindenmayer.Source.CharCursor
import Lindenmayer.Source.Expression
import Lindenmayer.Source.Parser
import Lindenmayer.Source.Syntax
import Lindenmayer.Source.SyntaxError
import Lindenmayer.Source.Token
import Lindenmayer.Source.TokenStream
import Lindenmayer.Term.Number
import Lindenmayer.Term.Operator
import Lindenmayer.Term.Value
import Lindenmayer.Term.ValueType
import Lindenmayer.Text.Blank
import Lindenmayer.Text.Bytes
import Lindenmayer.Text.Quoted
import Lindenmayer.Text.Unprintable
import Lindenmayer.Tree.Basic
import Lindenmayer.Tree.Copying
import Lindenmayer.Tree.Graph
import Lindenmayer.Tree.NodeId
import Lindenmayer.Tree.Planting
import Lindenmayer.Tree.Printer
import Lindenmayer.Tree.Rewriting
import Lindenmayer.Tree.Subtree
import Lindenmayer.Word.Basic
import Lindenmayer.Word.Error
import Lindenmayer.Word.Placeholder
import Lindenmayer.Word.Reading
