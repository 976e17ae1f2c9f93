import Stencil.Text
import Stencil.Text.Unprintable
import Stencil.Kind
import Stencil.Diagnostic
import Stencil.Journal
import Stencil.Token
import Stencil.Token.Numeral
import Stencil.Token.Quotation
import Stencil.Token.Scan
import Stencil.Token.Lexer
import Stencil.Tree
import Stencil.Tree.Place
import Stencil.Tree.SExpr
import Stencil.Tree.Layout
import Stencil.Grammar.Parser
import Stencil.Grammar.Part
import Stencil.Grammar.Expression
import Stencil.Grammar.Statement
import Stencil.Grammar.Markup
import Stencil.Decimal.Double
import Stencil.Decimal.Shortest
import Stencil.Options
import Stencil.Options.Decode
import Stencil.Template
import Stencil.View
import Stencil.Query
import Stencil.CommandLine
import Stencil.Main
import Stencil.Proofs.Lossless
import Stencil.Proofs.Within
import Stencil.Proofs.Yields
import Stencil.Proofs.Items
import Stencil.Proofs.Numbering
import Stencil.Proofs.Recovery
import Stencil.Proofs.Tiling
import Stencil.Proofs.Beginnings
import Stencil.Proofs.RoundTrip
import Stencil.Proofs.Contents
import Stencil.Proofs.Grouping
import Stencil.Proofs.Relocation
import Stencil.Proofs.Faults
import Stencil.Proofs.Malformed
import Stencil.Proofs.Restart
import Stencil.Proofs.Lookahead
import Stencil.Proofs.Locality
import Stencil.Proofs.Rows
import Stencil.Proofs.Concatenation
import Stencil.Proofs.Wrapping
import Stencil.Proofs.Elements
import Stencil.Proofs.Errors
import Stencil.Proofs.Accounting
import Stencil.Proofs.Ordering
import Stencil.Proofs.Boundaries
import Stencil.Proofs.Descent
import Stencil.Proofs.Progress
import Stencil.Proofs.Limits
import Stencil.Proofs.Nesting
import Stencil.Proofs.Shapes
import Stencil.Proofs.TokenText
import Stencil.Proofs.Views
import Stencil.Proofs.Similar
import Stencil.Proofs.Lockstep
import Stencil.Proofs.Follows
import Stencil.Proofs.Trivia
import Stencil.Proofs.Endings
import Stencil.Proofs.Fillings
import Stencil.Proofs.Holes
import Stencil.Proofs.Substitution
import Stencil.Proofs.Callees
import Stencil.Proofs.Siblings
import Stencil.Proofs.Contexts
import Stencil.Proofs.RawTags
import Stencil.Proofs.RawBlocks
import Stencil.Proofs.Statements
import Stencil.Proofs.TextRuns
import Stencil.Proofs.Diagnoses
import Stencil.Proofs.Literals
import Stencil.Proofs.Quotations
import Stencil.Proofs.Numerals
import Stencil.Proofs.Numbers
import Stencil.Proofs.Outlines
import Stencil.Proofs.Trims
import Stencil.Proofs.Targets
import Stencil.Proofs.Edges
import Stencil.Proofs.Loops
import Stencil.Proofs.Documents
import Stencil.Proofs.Layouts
import Stencil.Proofs.Traversals
import Stencil.Proofs.Cancellation
import Stencil.Proofs.TokenRuns
import Stencil.Proofs.Positions
import Stencil.Proofs.Machine
import Stencil.Proofs.Entries
import Stencil.Proofs.Carrying
import Stencil.Proofs.Trials
import Stencil.Proofs.Workings
import Stencil.Proofs.InPlace
import Stencil.Proofs.Stepwise
import Stencil.Proofs.Framing
import Stencil.Proofs.Discipline
import Stencil.Proofs.Arguments
import Stencil.Proofs.Speculation
import Stencil.Proofs.Storage
