import FormulaNet.Decimal.Binary64
import FormulaNet.Decimal.Layout
import FormulaNet.Decimal.Numeral
import FormulaNet.Decimal.Powers
import FormulaNet.Decimal.Shortest
import FormulaNet.Derivation.Calculation
import FormulaNet.Derivation.Distance
import FormulaNet.Derivation.Path
import FormulaNet.Derivation.Search
import FormulaNet.Document
import FormulaNet.Engine
import FormulaNet.Error
import FormulaNet.Expr.Basic
import FormulaNet.Expr.Isolate
import FormulaNet.Expr.Parser
import FormulaNet.Expr.Printer
import FormulaNet.Expr.Simplify
import FormulaNet.Expr.Value
import FormulaNet.Force.Composition
import FormulaNet.Force.Direction
import FormulaNet.Function
import FormulaNet.Json.Basic
import FormulaNet.Json.Reader
import FormulaNet.Json.Record
import FormulaNet.Json.Writer
import FormulaNet.Knowledge.Basic
import FormulaNet.Knowledge.Catalogue
import FormulaNet.Knowledge.Ids
import FormulaNet.Knowledge.Snapshot
import FormulaNet.Knowledge.Source
import FormulaNet.Notation
import FormulaNet.Problem.Known
import FormulaNet.Problem.Reply
import FormulaNet.Proofs.Calculation
import FormulaNet.Proofs.Derivation
import FormulaNet.Proofs.Derivation.Distance
import FormulaNet.Proofs.Engine
import FormulaNet.Proofs.Exact
import FormulaNet.Proofs.Except
import FormulaNet.Proofs.Expr.Isolate
import FormulaNet.Proofs.Expr.Parser
import FormulaNet.Proofs.Expr.Printer
import FormulaNet.Proofs.Expr.Simplify
import FormulaNet.Proofs.Expr.Value
import FormulaNet.Proofs.Knowledge.Growth
import FormulaNet.Proofs.Knowledge.Tables
import FormulaNet.Proofs.Rearrangement.Chain
import FormulaNet.Proofs.Rearrangement.Solver
import FormulaNet.Proofs.Rearrangement.Textbook
import FormulaNet.Proofs.Search.Estimate
import FormulaNet.Proofs.Search.Founded
import FormulaNet.Proofs.Search.Optimal
import FormulaNet.Proofs.Search.Origins
import FormulaNet.Proofs.Search.Run
import FormulaNet.Proofs.Token.Lexer
import FormulaNet.Rearrangement.Simple
import FormulaNet.Rearrangement.Solver
import FormulaNet.Rearrangement.Strategy
import FormulaNet.Rearrangement.Textbook
import FormulaNet.Scalar
import FormulaNet.Settings
import FormulaNet.Text.Alphabetic
import FormulaNet.Text.Classes
import FormulaNet.Text.Numeric
import FormulaNet.Text.Reading
import FormulaNet.Token
import FormulaNet.Token.Lexer
import FormulaNet.Toml.Basic
import FormulaNet.Toml.Literal
import FormulaNet.Toml.Reader
import FormulaNet.Toml.Record
import FormulaNet.Vocabulary
import FormulaNet.Proofs.Search.Decision
import FormulaNet.Proofs.Expr.Symbols
import FormulaNet.Proofs.Rearrangement.Circular
import FormulaNet.Proofs.Expr.Grammar
import FormulaNet.Proofs.Decimal.Plain
import FormulaNet.Proofs.Expr.Equivalence
import FormulaNet.Proofs.Token.Scan
import FormulaNet.Proofs.Expr.RoundTrip
import FormulaNet.Proofs.Decimal.Value
import FormulaNet.Proofs.Derivation.Metric
import FormulaNet.Proofs.Derivation.Queue
import FormulaNet.Proofs.Knowledge.Integrity
import FormulaNet.Proofs.Knowledge.Restoring
import FormulaNet.Proofs.Engine.Failure
import FormulaNet.Proofs.Search.Simulation
import FormulaNet.Proofs.Search.LargerBudget
import FormulaNet.Proofs.Search.KnownOrder
import FormulaNet.Proofs.Search.SingleQuantity
import FormulaNet.Proofs.Expr.Exposed
import FormulaNet.Proofs.Expr.Meaning
import FormulaNet.Proofs.Expr.NormalForm
import FormulaNet.Proofs.Reading.Real
import FormulaNet.Proofs.Expr.Inversion
import FormulaNet.Proofs.Rearrangement.Frame
import FormulaNet.Proofs.Calculation.Reordering
import FormulaNet.Proofs.Knowledge.Attempts
import FormulaNet.Proofs.Knowledge.Refusal
import FormulaNet.Proofs.Knowledge.Numbering
import FormulaNet.Proofs.Knowledge.Collecting
import FormulaNet.Proofs.Notation.Separator
import FormulaNet.Proofs.Notation.Settled
import FormulaNet.Proofs.Token.Rebracketed
import FormulaNet.Proofs.Expr.Exponent
import FormulaNet.Proofs.Notation.Superscript
import FormulaNet.Proofs.Decimal.Literal
import FormulaNet.Proofs.Token.Number
import FormulaNet.Proofs.Expr.Number
import FormulaNet.Proofs.Token.Layout
import FormulaNet.Proofs.Token.Pieces
import FormulaNet.Proofs.Rearrangement.Gate
import FormulaNet.Proofs.Expr.Cursor
import FormulaNet.Proofs.Decimal.Order
import FormulaNet.Proofs.Decimal.Rounding
import FormulaNet.Proofs.Decimal.Product
import FormulaNet.Proofs.Decimal.Fixed
import FormulaNet.Proofs.Force.Balance
import FormulaNet.Proofs.Force.Direction
import FormulaNet.Proofs.Token.Readings
import FormulaNet.Proofs.Expr.Unbracketed
import FormulaNet.Proofs.Rearrangement.Shape
import FormulaNet.Proofs.Search.Admissible
import FormulaNet.Proofs.Search.Ceiling
import FormulaNet.Proofs.Decimal.Mantissa
import FormulaNet.Proofs.Force.Number
import FormulaNet.Proofs.Decimal.Shortest
import FormulaNet.Proofs.Json.Literal
import FormulaNet.Proofs.Json.RoundTrip
import FormulaNet.Proofs.Knowledge.Exchange
import FormulaNet.Proofs.Search.Retracing
