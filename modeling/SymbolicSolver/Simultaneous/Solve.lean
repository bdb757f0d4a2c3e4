import SymbolicSolver.Expr.Printer
import SymbolicSolver.Postfix
import SymbolicSolver.Query.NormalForm
import SymbolicSolver.Simultaneous.Elimination
import SymbolicSolver.Simultaneous.Newton

/-!
# Systems of equations

A system is given by texts of equations. It is solved by elimination, else, with as many equations as unknowns,
numerically, and else it is stated back. Solutions are checked against the equations, sorted by value, and
given once.
-/

namespace SymbolicSolver

/-- The value of an unknown in a solution. -/
inductive SolutionValue where
  | exact (x : Expr)
  | approximate (v : Float)

namespace SolutionValue

/-- Equality of values; floats are compared as numbers. -/
def same : SolutionValue → SolutionValue → Bool
  | exact x, exact y => x = y
  | approximate v, approximate w => v == w
  | _, _ => false

/-- The number by which a value is sorted. -/
def number : SolutionValue → Float × Float
  | exact x => x.rootValue
  | approximate v => (v, 0)

/-- The text of a value. -/
def text (precision : Nat) : SolutionValue → String
  | exact x => x.text
  | approximate v => Decimal.formatReal v precision

end SolutionValue

/-- The values of all unknowns, in their order. -/
abbrev SolutionTuple := List SolutionValue

/-- What is known of a system: no solution, finitely many tuples, or nothing but its statement. -/
inductive Simultaneous.Solutions where
  | empty
  | tuples (unknowns : List String) (ts : List SolutionTuple)
  | stated (equations : List (Expr × Expr)) (unknowns : List String)

namespace Simultaneous

/-! ## Reading -/

/-- The two sides of an equation; a text without an equals sign is no equation. -/
def readEquation? (s : String) : Option (Except Error (Expr × Expr)) :=
  (Text.splitOnce? '=' s.toList).map fun sides =>
    match Expr.read (String.ofList (Query.normalChars sides.1)) with
    | .error err => .error err
    | .ok l =>
      match Expr.read (String.ofList (Query.normalChars sides.2)) with
      | .error err => .error err
      | .ok r => .ok (l, r)

/-- Reads the equations among the texts. -/
def readEquations (texts : List String) : Except Error (List (Expr × Expr)) :=
  (texts.filterMap readEquation?).mapM id

/-- The unknowns of the equations, sorted. -/
def unknownsOf (equations : List (Expr × Expr)) : List String :=
  equations.foldl (fun vars eq => eq.2.collectVars (eq.1.collectVars vars)) []

/-! ## Checking and sorting -/

/-- Whether an equation holds for a tuple of exact values: numerically for a constant, and by trust where
variables remain. -/
def holdsFor (unknowns : List String) (values : List Expr) (f : Expr) : Bool :=
  let g := ((unknowns.zip values).foldl (fun g p => g.subst p.1 p.2) f).simplify
  if !g.isFinite then false
  else if !g.isConstant then true
  else
    match g.evaluateConstant with
    | .ok z => z.norm < 1e-7
    | .error _ => false

/-- Compares tuples by the first pair of values that differ. -/
def compareTuples : SolutionTuple → SolutionTuple → Ordering
  | x :: xs, y :: ys => (Expr.compareValues x.number y.number).then (compareTuples xs ys)
  | _, _ => .eq

def sameTuple (a b : SolutionTuple) : Bool :=
  a.length = b.length && (List.zipWith SolutionValue.same a b).all id

/-- Removes every tuple that equals the one before it. -/
def dropRepeated : List SolutionTuple → List SolutionTuple
  | [] => []
  | t :: ts =>
    match dropRepeated ts with
    | [] => [t]
    | u :: us => if sameTuple t u then u :: us else t :: u :: us

/-- Sorts the tuples and gives each once. -/
def ofTuples (unknowns : List String) (ts : List SolutionTuple) : Solutions :=
  if ts.isEmpty then .empty
  else .tuples unknowns (dropRepeated (ts.mergeSort fun a b => (compareTuples a b).isLE))

/-! ## Solving -/

/-- The tuples that elimination yields and that satisfy the equations. -/
def eliminationTuples (fs : List Expr) (unknowns : List String) (solutions : List Bindings) :
    List SolutionTuple :=
  let tuples := solutions.map fun m => unknowns.map fun v => (m.find? v).getD (.var v)
  (tuples.filter fun t => fs.all (holdsFor unknowns t)).map fun t => t.map .exact

/-- Solves a system of equations. -/
def solvePairs (equations : List (Expr × Expr)) (settings : Settings) : Solutions :=
  let unknowns := unknownsOf equations
  let fs := equations.map fun eq => (eq.1 - eq.2).simplify
  match Elimination.solve? settings fs unknowns with
  | some solutions => ofTuples unknowns (eliminationTuples fs unknowns solutions)
  | none =>
    if fs.length ≠ unknowns.length then .stated equations unknowns
    else
      match Newton.roots fs unknowns settings with
      | [] => .stated equations unknowns
      | roots => ofTuples unknowns (roots.map fun x => x.map .approximate)

/-- Solves the system that the texts state. -/
def solve (texts : List String) (settings : Settings) : Except Error Solutions :=
  match readEquations texts with
  | .error err => .error err
  | .ok [] => .ok .empty
  | .ok equations => .ok (solvePairs equations settings)

/-! ## Text -/

/-- A tuple with the names of its unknowns. -/
def tupleText (precision : Nat) (unknowns : List String) (t : SolutionTuple) : String :=
  "(" ++ String.intercalate ", "
    (List.zipWith (fun v x => v ++ " = " ++ SolutionValue.text precision x) unknowns t) ++ ")"

/-- A system stated as the set of its solutions. -/
def statement (equations : List (Expr × Expr)) (unknowns : List String) : String :=
  "ConditionSet((" ++ String.intercalate ", " unknowns ++ "), \x7b" ++
    String.intercalate ", " (equations.map fun eq => eq.1.text ++ " = " ++ eq.2.text) ++ "\x7d)"

/-- The text of the solutions. -/
def solutionsText (precision : Nat) : Solutions → String
  | .empty => "No solution found."
  | .tuples unknowns ts => "Solutions: " ++ String.join (ts.map (tupleText precision unknowns))
  | .stated equations unknowns => "Solutions: " ++ statement equations unknowns

/-- The answer to a system. -/
def answer (texts : List String) (settings : Settings) : String :=
  match solve texts settings with
  | .ok s => solutionsText settings.precision s
  | .error err => "❌ Unable to solve system: " ++ err.message

end Simultaneous

end SymbolicSolver
