import ComplexSeries.Text.Blank
import ComplexSeries.Text.Line
import ComplexSeries.Variable
import ComplexSeries.Keyword
import ComplexSeries.Lexeme.Basic
import ComplexSeries.Lexeme.Scan
import ComplexSeries.Lexeme.Arguments
import ComplexSeries.ParseError
import ComplexSeries.Bracket.Pair
import ComplexSeries.Bracket.Balance
import ComplexSeries.Input.Alias
import ComplexSeries.Input.Bars
import ComplexSeries.Input.Letters
import ComplexSeries.Input.Juxtaposition
import ComplexSeries.Input.Sign
import ComplexSeries.Input.Mark
import ComplexSeries.Input.Canonical
import ComplexSeries.Decimal.Basic
import ComplexSeries.Decimal.Numeral
import ComplexSeries.Decimal.Binary64
import ComplexSeries.Decimal.Shortest
import ComplexSeries.Scalar
import ComplexSeries.Scalar.Double
import ComplexSeries.Complex.Basic
import ComplexSeries.Complex.Text
import ComplexSeries.Complex.Bounds
import ComplexSeries.Complex.Elementary
import ComplexSeries.Expr.Basic
import ComplexSeries.Expr.Text
import ComplexSeries.Expr.Scope
import ComplexSeries.Expr.Parse
import ComplexSeries.Expr.Fold
import ComplexSeries.Token.Basic
import ComplexSeries.Token.OfExpr
import ComplexSeries.IndexRange
import ComplexSeries.Integral.Riemann
import ComplexSeries.Integral.Memory
import ComplexSeries.Eval
import ComplexSeries.Evaluator
import ComplexSeries.Settings.Basic
import ComplexSeries.Settings.Value
import ComplexSeries.Settings.Document
import ComplexSeries.Settings.Read
import ComplexSeries.Compile
import ComplexSeries.Slot
import ComplexSeries.Table
import ComplexSeries.Proofs.Result
import ComplexSeries.Proofs.Variable
import ComplexSeries.Proofs.Keyword.Longest
import ComplexSeries.Proofs.Lexeme.Nesting
import ComplexSeries.Proofs.Lexeme.Scanned
import ComplexSeries.Proofs.Lexeme.Checks
import ComplexSeries.Proofs.Lexeme.Rescan
import ComplexSeries.Proofs.Lexeme.Render
import ComplexSeries.Proofs.Lexeme.Arguments
import ComplexSeries.Proofs.Input.Neighbours
import ComplexSeries.Proofs.Input.Product
import ComplexSeries.Proofs.Input.Sign
import ComplexSeries.Proofs.Input.Mark
import ComplexSeries.Proofs.Input.Declared
import ComplexSeries.Proofs.Input.Indices
import ComplexSeries.Proofs.Input.Spelling
import ComplexSeries.Proofs.Input.Canonical
import ComplexSeries.Proofs.Token.Split
import ComplexSeries.Proofs.Expr.Height
import ComplexSeries.Proofs.Expr.Scope
import ComplexSeries.Proofs.Expr.Value
import ComplexSeries.Proofs.Expr.Fold
import ComplexSeries.Proofs.Eval.Lift
import ComplexSeries.Proofs.Eval.Bindings
import ComplexSeries.Proofs.Eval.Operand
import ComplexSeries.Proofs.Eval.Walk
import ComplexSeries.Proofs.Table.Row
import ComplexSeries.Proofs.Table
import ComplexSeries.Proofs.Expr.Grammar
import ComplexSeries.Proofs.Expr.Reader
import ComplexSeries.Proofs.Expr.Levels
import ComplexSeries.Proofs.Expr.Bounded
import ComplexSeries.Proofs.Compile
import ComplexSeries.Proofs.Double.Packed
import ComplexSeries.Proofs.Double.Rounded
import ComplexSeries.Proofs.Double.Order
import ComplexSeries.Proofs.Scalar.Laws
import ComplexSeries.Proofs.Decimal
import ComplexSeries.Proofs.Expr.Literal
import ComplexSeries.Proofs.Double.Neutral
import ComplexSeries.Proofs.Double.Laws
import ComplexSeries.Proofs.Expr.Spelled
import ComplexSeries.Proofs.Expr.Normal
import ComplexSeries.Proofs.Expr.Reread
import ComplexSeries.Proofs.Expr.FoldText
import ComplexSeries.Proofs.Integral.Nearest
import ComplexSeries.Proofs.Integral.Answer
import ComplexSeries.Proofs.Eval.Compositional
import ComplexSeries.Proofs.Eval.Grows
import ComplexSeries.Proofs.Integral.Recorded
import ComplexSeries.Proofs.Expr.Recorded
import ComplexSeries.Proofs.Expr.Provenance
import ComplexSeries.Proofs.Integral.Traced
import ComplexSeries.Proofs.Integral.Repeats
import ComplexSeries.Proofs.Expr.Traced
import ComplexSeries.Proofs.Expr.Learnt
import ComplexSeries.Proofs.Table.Repeat
import ComplexSeries.Proofs.Table.Carried
import ComplexSeries.Proofs.Table.Isolated
import ComplexSeries.Proofs.Eval.FreeVariables
import ComplexSeries.Proofs.Settings.Admissible
import ComplexSeries.Proofs.Integral.History
import ComplexSeries.Proofs.Settings.Document
import ComplexSeries.Proofs.Table.Real
import ComplexSeries.Proofs.Double.Exact
import ComplexSeries.Proofs.IndexRange
import ComplexSeries.Proofs.Double.Nearest
import ComplexSeries.Proofs.Double.Arithmetic
import ComplexSeries.Proofs.Complex.Division
import ComplexSeries.Proofs.Expr.Reduced
import ComplexSeries.Proofs.Expr.Validate
import ComplexSeries.Proofs.Eval.Span
import ComplexSeries.Proofs.Expr.PrefixOrder
import ComplexSeries.Proofs.Double.TotalOrder
import ComplexSeries.Proofs.Integral.Planned
import ComplexSeries.Proofs.Integral.Stored
import ComplexSeries.Proofs.Expr.Stored
import ComplexSeries.Proofs.Expr.Causes
import ComplexSeries.Proofs.Expr.LiteralValue
import ComplexSeries.Proofs.Eval.Renamed
import ComplexSeries.Proofs.Eval.Evaluator
import ComplexSeries.Proofs.Settings.Visited
import ComplexSeries.Proofs.Input.Bars
import ComplexSeries.Proofs.Input.Expanded
import ComplexSeries.Proofs.Bracket.Height
import ComplexSeries.Proofs.Bracket.Partner
import ComplexSeries.Proofs.Lexeme.Lossless
import ComplexSeries.Proofs.Lexeme.Calls
import ComplexSeries.Proofs.IndexRange.Calls
import ComplexSeries.Proofs.Input.InPlace
import ComplexSeries.Proofs.Input.Completed
