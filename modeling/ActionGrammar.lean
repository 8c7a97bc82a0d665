import ActionGrammar.Attempt
import ActionGrammar.Decimal.Basic
import ActionGrammar.Decimal.Notation
import ActionGrammar.Decimal.Shortest
import ActionGrammar.Diagnostic.Basic
import ActionGrammar.Diagnostic.Excerpt
import ActionGrammar.Diagnostic.Line
import ActionGrammar.Diagnostic.Row
import ActionGrammar.Diagnostic.Visible
import ActionGrammar.Diagnostic.Window
import ActionGrammar.Error
import ActionGrammar.Expr.Basic
import ActionGrammar.Expr.Eval
import ActionGrammar.Expr.Printer
import ActionGrammar.Expr.Resolve
import ActionGrammar.Grammar.Basic
import ActionGrammar.Grammar.Builder
import ActionGrammar.Grammar.Dump
import ActionGrammar.Grammar.Error
import ActionGrammar.Grammar.LeftRecursion
import ActionGrammar.Grammar.Symbol
import ActionGrammar.GrammarText.Declaration
import ActionGrammar.GrammarText.Grammar
import ActionGrammar.GrammarText.Lexer
import ActionGrammar.GrammarText.Part
import ActionGrammar.GrammarText.Read
import ActionGrammar.GrammarText.Scanner
import ActionGrammar.GrammarText.Token
import ActionGrammar.Language
import ActionGrammar.Literal
import ActionGrammar.Parse.Engine
import ActionGrammar.Parse.Error
import ActionGrammar.Parse.Event
import ActionGrammar.Parse.Limits
import ActionGrammar.Parse.Trace
import ActionGrammar.Proofs.Attempt
import ActionGrammar.Proofs.Decimal.Binary
import ActionGrammar.Proofs.Decimal.Nearest
import ActionGrammar.Proofs.Decimal.Notation
import ActionGrammar.Proofs.Decimal.Reading
import ActionGrammar.Proofs.Decimal.Rounding
import ActionGrammar.Proofs.Decimal.Shortest
import ActionGrammar.Proofs.Except
import ActionGrammar.Proofs.Expr.Calls
import ActionGrammar.Proofs.Expr.Dispatch
import ActionGrammar.Proofs.Expr.Everywhere
import ActionGrammar.Proofs.Expr.Purity
import ActionGrammar.Proofs.Expr.Range
import ActionGrammar.Proofs.Grammar.Bound
import ActionGrammar.Proofs.Grammar.Built
import ActionGrammar.Proofs.Grammar.Closed
import ActionGrammar.Proofs.Grammar.Complete
import ActionGrammar.Proofs.Grammar.Cycle
import ActionGrammar.Proofs.Grammar.Derivation
import ActionGrammar.Proofs.Grammar.Dump
import ActionGrammar.Proofs.Grammar.Grouping
import ActionGrammar.Proofs.Grammar.Handles
import ActionGrammar.Proofs.Grammar.History
import ActionGrammar.Proofs.Grammar.Interleaving
import ActionGrammar.Proofs.Grammar.LeftEdge
import ActionGrammar.Proofs.Grammar.LeftRecursion
import ActionGrammar.Proofs.Grammar.Lookahead
import ActionGrammar.Proofs.Grammar.LookaheadTable
import ActionGrammar.Proofs.Grammar.Registration
import ActionGrammar.Proofs.Grammar.Reorder
import ActionGrammar.Proofs.Grammar.Staging
import ActionGrammar.Proofs.Grammar.WellFormed
import ActionGrammar.Proofs.GrammarText.Actions
import ActionGrammar.Proofs.GrammarText.Assembly
import ActionGrammar.Proofs.GrammarText.Binding
import ActionGrammar.Proofs.GrammarText.Diagnosis
import ActionGrammar.Proofs.GrammarText.Garbage
import ActionGrammar.Proofs.GrammarText.Grammar
import ActionGrammar.Proofs.GrammarText.Lexeme
import ActionGrammar.Proofs.GrammarText.Lexer
import ActionGrammar.Proofs.GrammarText.Library
import ActionGrammar.Proofs.GrammarText.LongestMatch
import ActionGrammar.Proofs.GrammarText.Notation
import ActionGrammar.Proofs.GrammarText.Number
import ActionGrammar.Proofs.GrammarText.NumberText
import ActionGrammar.Proofs.GrammarText.Partition
import ActionGrammar.Proofs.GrammarText.Pattern
import ActionGrammar.Proofs.GrammarText.Printing
import ActionGrammar.Proofs.GrammarText.Production
import ActionGrammar.Proofs.GrammarText.Read
import ActionGrammar.Proofs.GrammarText.Respacing
import ActionGrammar.Proofs.GrammarText.RoundTrip
import ActionGrammar.Proofs.GrammarText.Slices
import ActionGrammar.Proofs.GrammarText.Source
import ActionGrammar.Proofs.GrammarText.Spelling
import ActionGrammar.Proofs.GrammarText.Unexpected
import ActionGrammar.Proofs.GrammarText.Verbatim
import ActionGrammar.Proofs.Parse.Ambiguity
import ActionGrammar.Proofs.Parse.AmbiguityReport
import ActionGrammar.Proofs.Parse.Answers
import ActionGrammar.Proofs.Parse.Calls
import ActionGrammar.Proofs.Parse.Choice
import ActionGrammar.Proofs.Parse.Commitment
import ActionGrammar.Proofs.Parse.Congruence
import ActionGrammar.Proofs.Parse.Engine
import ActionGrammar.Proofs.Parse.Evaluation
import ActionGrammar.Proofs.Parse.Frame
import ActionGrammar.Proofs.Parse.Interchange
import ActionGrammar.Proofs.Parse.Leftmost
import ActionGrammar.Proofs.Parse.Limits
import ActionGrammar.Proofs.Parse.Nesting
import ActionGrammar.Proofs.Parse.Noting
import ActionGrammar.Proofs.Parse.Positions
import ActionGrammar.Proofs.Parse.Predictive
import ActionGrammar.Proofs.Parse.Recognition
import ActionGrammar.Proofs.Parse.Recording
import ActionGrammar.Proofs.Parse.Reductions
import ActionGrammar.Proofs.Parse.Reorder
import ActionGrammar.Proofs.Parse.Slots
import ActionGrammar.Proofs.Parse.Soundness
import ActionGrammar.Proofs.Parse.Trace
import ActionGrammar.Proofs.Parse.Tracing
import ActionGrammar.Proofs.Parse.Transcript
import ActionGrammar.Proofs.Parse.Traversal
import ActionGrammar.Proofs.Parse.Twins
import ActionGrammar.Proofs.Parse.Viable
import ActionGrammar.Proofs.Parse.Visits
import ActionGrammar.Proofs.Registry.Declared
import ActionGrammar.Proofs.Registry.Extension
import ActionGrammar.Proofs.Registry.Lookup
import ActionGrammar.Proofs.Registry.Module
import ActionGrammar.Proofs.Registry.Names
import ActionGrammar.Proofs.Registry.Owner
import ActionGrammar.Proofs.Registry.Reachability
import ActionGrammar.Proofs.Registry.Receiver
import ActionGrammar.Proofs.Registry.Representation
import ActionGrammar.Proofs.Registry.Selection
import ActionGrammar.Proofs.Text.DottedName
import ActionGrammar.Proofs.Text.Identifier
import ActionGrammar.Proofs.Value.Renaming
import ActionGrammar.Registry.Basic
import ActionGrammar.Registry.Error
import ActionGrammar.Registry.Module
import ActionGrammar.Registry.Overload
import ActionGrammar.Registry.TypeDef
import ActionGrammar.Text.Bytes
import ActionGrammar.Text.CharClass
import ActionGrammar.Text.DottedName
import ActionGrammar.Text.GraphemeExtend
import ActionGrammar.Text.Ignorable
import ActionGrammar.Text.Quoted
import ActionGrammar.Text.Unprintable
import ActionGrammar.Text.Width
import ActionGrammar.Token
import ActionGrammar.Value.Basic
import ActionGrammar.Value.Kind
import ActionGrammar.Value.Printer
import ActionGrammar.Value.Shape
import ActionGrammar.Value.Store
