import SymbolicSolver.Calculus.Derivative
import SymbolicSolver.Calculus.Integral
import SymbolicSolver.Calculus.Limit
import SymbolicSolver.Calculus.PartialFraction
import SymbolicSolver.Calculus.Summation
import SymbolicSolver.CommandLine
import SymbolicSolver.Equation.Basic
import SymbolicSolver.Equation.Isolate
import SymbolicSolver.Equation.Newton
import SymbolicSolver.Equation.Real
import SymbolicSolver.Equation.Solve
import SymbolicSolver.Error
import SymbolicSolver.Expr.Angle
import SymbolicSolver.Expr.Apply
import SymbolicSolver.Expr.Basic
import SymbolicSolver.Expr.Canonical
import SymbolicSolver.Expr.Evaluate
import SymbolicSolver.Expr.Expand
import SymbolicSolver.Expr.Fraction
import SymbolicSolver.Expr.Func
import SymbolicSolver.Expr.OpCount
import SymbolicSolver.Expr.Order
import SymbolicSolver.Expr.Parts
import SymbolicSolver.Expr.Printer
import SymbolicSolver.Expr.Substitution
import SymbolicSolver.Expr.Variable
import SymbolicSolver.Main
import SymbolicSolver.Number.ComplexFloat
import SymbolicSolver.Number.Decimal
import SymbolicSolver.Number.FloatOrder
import SymbolicSolver.Number.NumericRoot
import SymbolicSolver.Number.Rational
import SymbolicSolver.Number.Root
import SymbolicSolver.Polynomial.Basic
import SymbolicSolver.Polynomial.ClosedForm
import SymbolicSolver.Polynomial.Coefficients
import SymbolicSolver.Polynomial.RationalRoots
import SymbolicSolver.Postfix
import SymbolicSolver.Proofs.Calculus.Antiderivative
import SymbolicSolver.Proofs.Calculus.ChangeOfVariable
import SymbolicSolver.Proofs.Calculus.Derivative
import SymbolicSolver.Proofs.Calculus.FiniteSum
import SymbolicSolver.Proofs.Calculus.Geometric
import SymbolicSolver.Proofs.Calculus.InfiniteSum
import SymbolicSolver.Proofs.Calculus.LeadingTerm
import SymbolicSolver.Proofs.Calculus.Limit
import SymbolicSolver.Proofs.Calculus.Logarithm
import SymbolicSolver.Proofs.Calculus.PartialFraction
import SymbolicSolver.Proofs.Calculus.PiTerm
import SymbolicSolver.Proofs.Calculus.RightLimit
import SymbolicSolver.Proofs.Calculus.Substitution
import SymbolicSolver.Proofs.Calculus.Telescoping
import SymbolicSolver.Proofs.Calculus.Variables
import SymbolicSolver.Proofs.Canonical.Applied
import SymbolicSolver.Proofs.Canonical.Closed
import SymbolicSolver.Proofs.Canonical.Combination
import SymbolicSolver.Proofs.Canonical.Constructed
import SymbolicSolver.Proofs.Canonical.Extended
import SymbolicSolver.Proofs.Canonical.ExtendedSum
import SymbolicSolver.Proofs.Canonical.Form
import SymbolicSolver.Proofs.Canonical.FormProduct
import SymbolicSolver.Proofs.Canonical.FormSum
import SymbolicSolver.Proofs.Canonical.Hereditary
import SymbolicSolver.Proofs.Canonical.Key
import SymbolicSolver.Proofs.Canonical.Linear
import SymbolicSolver.Proofs.Canonical.Nesting
import SymbolicSolver.Proofs.Canonical.OperandOrder
import SymbolicSolver.Proofs.Canonical.Order
import SymbolicSolver.Proofs.Canonical.PolynomialForm
import SymbolicSolver.Proofs.Canonical.PowerCases
import SymbolicSolver.Proofs.Canonical.Powers
import SymbolicSolver.Proofs.Canonical.Product
import SymbolicSolver.Proofs.Canonical.RationalPower
import SymbolicSolver.Proofs.Canonical.Rebuild
import SymbolicSolver.Proofs.Canonical.Regular
import SymbolicSolver.Proofs.Canonical.Rounds
import SymbolicSolver.Proofs.Canonical.Shallow
import SymbolicSolver.Proofs.Canonical.SquareRoot
import SymbolicSolver.Proofs.Canonical.Stable
import SymbolicSolver.Proofs.Canonical.Standing
import SymbolicSolver.Proofs.Canonical.Sum
import SymbolicSolver.Proofs.Canonical.Tidy
import SymbolicSolver.Proofs.Canonical.TreeOrder
import SymbolicSolver.Proofs.Canonical.Weight
import SymbolicSolver.Proofs.Equation.Identity
import SymbolicSolver.Proofs.Equation.Real
import SymbolicSolver.Proofs.Interpretation.Basic
import SymbolicSolver.Proofs.Interpretation.Closure
import SymbolicSolver.Proofs.Interpretation.Operations
import SymbolicSolver.Proofs.Interpretation.Point
import SymbolicSolver.Proofs.Interpretation.Product
import SymbolicSolver.Proofs.Interpretation.Quotient
import SymbolicSolver.Proofs.Interpretation.Replacement
import SymbolicSolver.Proofs.Interpretation.Sum
import SymbolicSolver.Proofs.Number.Bits
import SymbolicSolver.Proofs.Number.DistinctRoots
import SymbolicSolver.Proofs.Number.Double
import SymbolicSolver.Proofs.Number.PerfectPower
import SymbolicSolver.Proofs.Number.Root
import SymbolicSolver.Proofs.Number.Rounding
import SymbolicSolver.Proofs.Polynomial.ClosedForm
import SymbolicSolver.Proofs.Polynomial.Coefficients
import SymbolicSolver.Proofs.Polynomial.Division
import SymbolicSolver.Proofs.Polynomial.ExactRoots
import SymbolicSolver.Proofs.Polynomial.GreatestDivisor
import SymbolicSolver.Proofs.Polynomial.LongDivision
import SymbolicSolver.Proofs.Polynomial.PartialFraction
import SymbolicSolver.Proofs.Polynomial.Quadratic
import SymbolicSolver.Proofs.Polynomial.RationalFunction
import SymbolicSolver.Proofs.Polynomial.RationalRoots
import SymbolicSolver.Proofs.Polynomial.RoundTrip
import SymbolicSolver.Proofs.Polynomial.SortedRoots
import SymbolicSolver.Proofs.Polynomial.Terms
import SymbolicSolver.Proofs.Postfix.Acceptance
import SymbolicSolver.Proofs.Postfix.Depth
import SymbolicSolver.Proofs.Postfix.Grammar
import SymbolicSolver.Proofs.Postfix.Placement
import SymbolicSolver.Proofs.Postfix.Reading
import SymbolicSolver.Proofs.Printer.Basic
import SymbolicSolver.Proofs.Printer.Feedback
import SymbolicSolver.Proofs.Printer.Formula
import SymbolicSolver.Proofs.Printer.ReadBack
import SymbolicSolver.Proofs.Printer.Spelling
import SymbolicSolver.Proofs.Query.Arithmetic
import SymbolicSolver.Proofs.Query.CleanText
import SymbolicSolver.Proofs.Query.DropFillers
import SymbolicSolver.Proofs.Query.ExactArithmetic
import SymbolicSolver.Proofs.Query.NormalForm
import SymbolicSolver.Proofs.Query.Steps
import SymbolicSolver.Proofs.Query.TaggedNames
import SymbolicSolver.Proofs.Query.WordedPass
import SymbolicSolver.Proofs.Query.Wording
import SymbolicSolver.Proofs.Session
import SymbolicSolver.Proofs.Simplify.Basic
import SymbolicSolver.Proofs.Simplify.CirclePoint
import SymbolicSolver.Proofs.Simplify.CommonDenominator
import SymbolicSolver.Proofs.Simplify.Expand
import SymbolicSolver.Proofs.Simplify.Forms
import SymbolicSolver.Proofs.Simplify.Fraction
import SymbolicSolver.Proofs.Simplify.Inherited
import SymbolicSolver.Proofs.Simplify.Linear
import SymbolicSolver.Proofs.Simplify.Plain
import SymbolicSolver.Proofs.Simplify.Trigonometric
import SymbolicSolver.Proofs.Simultaneous.Bindings
import SymbolicSolver.Proofs.Simultaneous.Elimination
import SymbolicSolver.Proofs.Simultaneous.Solve
import SymbolicSolver.Proofs.Text.Lowercase
import SymbolicSolver.Proofs.Token.Lexeme
import SymbolicSolver.Proofs.Value
import SymbolicSolver.Proofs.Variables.Answers
import SymbolicSolver.Proofs.Variables.Integral
import SymbolicSolver.Proofs.Variables.Limit
import SymbolicSolver.Proofs.Variables.Roots
import SymbolicSolver.Proofs.Variables.Substitution
import SymbolicSolver.Query.Arithmetic
import SymbolicSolver.Query.NormalForm
import SymbolicSolver.Query.Phrase
import SymbolicSolver.Query.Recognise
import SymbolicSolver.Reply
import SymbolicSolver.Session
import SymbolicSolver.Settings
import SymbolicSolver.Simplify.Basic
import SymbolicSolver.Simplify.Trigonometric
import SymbolicSolver.Simultaneous.Elimination
import SymbolicSolver.Simultaneous.Newton
import SymbolicSolver.Simultaneous.Solve
import SymbolicSolver.Text.Blank
import SymbolicSolver.Text.Digit
import SymbolicSolver.Text.Lowercase
import SymbolicSolver.Text.Ranges
import SymbolicSolver.Text.Search
import SymbolicSolver.Text.Word
import SymbolicSolver.Token
import SymbolicSolver.Window
