import SymbolicSolver.Calculus.Integral
import SymbolicSolver.Calculus.Limit
import SymbolicSolver.Calculus.Summation
import SymbolicSolver.Equation.Solve
import SymbolicSolver.Expr.Variable
import SymbolicSolver.Query.Arithmetic
import SymbolicSolver.Query.Phrase
import SymbolicSolver.Simultaneous.Solve

/-!
# Replies to queries

A query is tried as a system, a differential equation, a sum, a derivative, an integral, a limit, an equation
and an expression, in this order. The first of these that it can be read as gives the reply, also when what
follows fails; a failure is a reply too.
-/

namespace SymbolicSolver

/-- What a query was read as. -/
inductive Branch where
  | system | differential | sum | derivative | integral | limit | equation | expression | failure
  deriving DecidableEq

namespace Branch

/-- The name shown for a branch. -/
def name : Branch → String
  | system => "systeme"
  | differential => "edo"
  | sum => "somme"
  | derivative => "derivee"
  | integral => "integrale"
  | limit => "limite"
  | equation => "equation"
  | expression => "expression"
  | failure => "erreur"

end Branch

/-- The reply to a query: the answer, what the query was read as, and the formula that was read. -/
structure Reply where
  answer : String
  branch : Branch
  normalized : String
  deriving DecidableEq

namespace Reply

/-- A query, and the query in lower case. -/
structure Request where
  text : String
  lowered : List Char

namespace Request

def ofText (s : String) : Request := ⟨s, Text.lower s.toList⟩

end Request

/-- An answer with the formula that was read. -/
abbrev Outcome := Except Error (String × String)

/-- A way to read a query; there is no outcome when the query cannot be read so. -/
abbrev Reading := Settings → Request → Option Outcome

/-! ## Numbers -/

/-- The numeric value of a constant, and the expression itself where there is none. -/
def numberText (settings : Settings) (x : Expr) : String :=
  if !x.isConstant || x.infinitySign?.isSome then x.text
  else
    match x.evaluateConstant with
    | .ok z => z.format settings.precision
    | .error _ => x.text

/-- The text of a numeric root. -/
def rootText (precision : Nat) : NumericRoot → String
  | .real x => Decimal.formatReal x precision
  | .complex z => z.format precision

/-! ## Readings -/

/-- Two equations or more are a system, of which the words are the equations. -/
def system : Reading := fun settings q =>
  if q.lowered.count '=' ≤ 1 then none
  else
    let equations := (Text.words q.text.toList).map String.ofList
    some (.ok (Simultaneous.answer equations settings, String.intercalate " " equations))

/-- Differential equations are recognised and refused. -/
def differential : Reading := fun _ q =>
  if Text.containsWord "differential equation" q.lowered || Text.containsWord "ode" q.lowered then
    some (.ok
      ("ODEs and systems of equations are not yet supported for general parsing.", ""))
  else none

/-- Reads a whole number in ASCII digits. -/
def readInt (s : String) : Except Error Int :=
  let (negative, ds) := match s.toList with
    | '-' :: ds => (true, ds)
    | ds => (false, ds)
  if ds.all Token.isDigit then
    let n : Int := Token.digitsValue ds
    .ok (if negative then -n else n)
  else .error (.invalidNumber s)

/-- Reads the upper bound of a sum. -/
def readBound (s : String) : Except Error UpperBound :=
  if s = "inf" then .ok .infinite else (readInt s).map .finite

/-- The answer to a sum phrase. -/
def sumOutcome (settings : Settings) (p : SymbolicSolver.Query.SumPhrase) : Outcome := do
  let a ← readInt p.lower
  let b ← readBound p.upper
  let normalized := Query.normalForm p.summand
  let f ← Expr.read normalized
  let answer :=
    match f.summation? p.index a b settings.maxSumTerms with
    | some s => s.simplify.text
    | none =>
      "Sum(" ++ f.text ++ ", (" ++ p.index ++ ", " ++ toString a ++ ", " ++ b.text ++ "))"
  return ("Summation: " ++ answer, normalized)

/-- A sum over an index. -/
def sum : Reading := fun settings q => (Query.sumPhrase? q.lowered).map (sumOutcome settings)

/-- A derivative, by the named variable or else by the variable of the formula. -/
def derivative : Reading := fun _ q =>
  (Query.derivativePhrase? q.lowered).map fun p => do
    let normalized := Query.normalForm p.1
    let f ← Expr.read normalized
    let v := p.2.getD f.mainVariable
    return ("Derivative: " ++ (f.derivative v).simplify.text, normalized)

/-- An integral. -/
def integral : Reading := fun _ q =>
  (Query.integralPhrase? q.lowered).map fun s => do
    let normalized := Query.normalForm s
    let f ← Expr.read normalized
    let v := f.mainVariable
    let answer :=
      match f.integral? v with
      | some p => p.simplify.text
      | none => "Integral(" ++ f.text ++ ", " ++ v ++ ")"
    return ("Integral: " ++ answer, normalized)

/-- Reads the point of a limit. -/
def readPoint (s : String) : Except Error Expr :=
  if s ∈ ["oo", "inf", "+oo", "+inf"] then .ok .infinity
  else if s ∈ ["-oo", "-inf"] then .ok .negInfinity
  else Expr.read (Query.normalForm s)

/-- A limit. A text that names no variable and point is read on as something else. -/
def limit : Reading := fun _ q =>
  (Query.limitPhrase? q.lowered).map fun p => do
    let normalized := Query.normalForm p.body
    let f ← Expr.read normalized
    let point ← readPoint p.point
    let l ← f.limit p.index point
    return ("Limit: " ++ l.simplify.text, normalized)

/-- The texts of the solutions of an equation; there are none for an equation that always holds. -/
def solutionTexts? (settings : Settings) : SolutionSet → Option (List String)
  | .always => none
  | .empty => some []
  | .exact roots => some (roots.map (numberText settings))
  | .numeric roots =>
    some ((NumericRoot.dedupe roots settings.realOnly settings.imaginaryTolerance
      settings.rootDigits).map (rootText settings.precision))

/-- The answer to an equation. -/
def equationAnswer (settings : Settings) (left right : String) : Except Error String := do
  let lhs ← Expr.read left
  let rhs ← Expr.read right
  let v := (lhs - rhs).mainVariable
  return match solutionTexts? settings (solveEquation lhs rhs v settings) with
    | none => "The equation is true for all values."
    | some [] => "No solutions found."
    | some texts => "Solutions for " ++ v ++ ": " ++ String.intercalate ", " texts

/-- An equation in one unknown. -/
def equation : Reading := fun settings q =>
  let normalized := Query.normalForm q.text
  (Text.splitOnce? '=' normalized.toList).map fun sides =>
    (equationAnswer settings (String.ofList sides.1) (String.ofList sides.2)).map (·, normalized)

/-- The value of plain arithmetic in floating point, if it is finite. -/
def plainValue? (normalized : String) : Option Float :=
  if Query.isArithmetic normalized then
    (Query.Arithmetic.eval? normalized).filter fun v => v.isFinite
  else none

/-- The answer to an expression: simplified with variables, and else its value. -/
def expressionAnswer (settings : Settings) (normalized : String) : Except Error String := do
  let x ← Expr.read normalized
  if x.freeVars ≠ [] then return "Simplified: " ++ x.simplify.text
  else
    return "Result: " ++
      match plainValue? normalized with
      | some v => Decimal.formatReal v settings.precision
      | none => numberText settings x.simplify

/-- An expression. -/
def expression : Reading := fun settings q =>
  let normalized := Query.normalForm q.text
  some ((expressionAnswer settings normalized).map (·, normalized))

/-! ## Replies -/

/-- The readings in the order in which they are tried. -/
def readings : List (Branch × Reading) :=
  [(.system, system), (.differential, differential), (.sum, sum), (.derivative, derivative),
    (.integral, integral), (.limit, limit), (.equation, equation), (.expression, expression)]

/-- The reply for an outcome of a branch. -/
def ofOutcome (branch : Branch) : Outcome → Reply
  | .ok (answer, normalized) => ⟨answer, branch, normalized⟩
  | .error err => ⟨"❌ Unable to solve: " ++ err.message, .failure, ""⟩

/-- The reply to a query. -/
def ofText (settings : Settings) (s : String) : Reply :=
  let q := Request.ofText s
  (readings.findSome? fun r => (r.2 settings q).map (ofOutcome r.1)).getD
    (ofOutcome .failure (.error (.internal "aucune branche")))

end Reply

end SymbolicSolver
