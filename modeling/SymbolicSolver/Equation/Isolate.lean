import SymbolicSolver.Equation.Real

/-!
# The generic tier

Exact roots, complex ones included: of polynomials, of the factors of a product, by undoing the outermost
operation where the unknown stands in one term only, and by taking an inner expression as a new unknown.
Every such step works one level deeper; there are nine levels.
-/

namespace SymbolicSolver

namespace Expr

/-! ## Undoing an operation -/

/-- The equations `u = v` that `h = rhs` comes down to when the outermost operation of `h` is undone. -/
def undoFunc (f : Func) (u rhs : Expr) : List (Expr × Expr) :=
  let square (x : Expr) : Expr := power x (int 2)
  let log (x : Expr) : Expr := apply .log x
  match f with
  | .log => [(u, exp rhs)]
  | .asin => [(u, apply .sin rhs)]
  | .acos => [(u, apply .cos rhs)]
  | .atan => [(u, apply .tan rhs)]
  | .acot => [(u, apply .cot rhs)]
  | .asec => [(u, apply .sec rhs)]
  | .acsc => [(u, apply .csc rhs)]
  | .sin => [(u, apply .asin rhs), (u, pi - apply .asin rhs)]
  | .cos => [(u, apply .acos rhs), (u, -apply .acos rhs)]
  | .tan => [(u, apply .atan rhs)]
  | .cot => [(u, apply .acot rhs)]
  | .sec => [(u, apply .acos rhs.inverse)]
  | .csc => [(u, apply .asin rhs.inverse)]
  | .sinh => [(u, log (rhs + sqrt (square rhs + one)))]
  | .cosh =>
    let a := log (rhs + sqrt (square rhs - one))
    [(u, a), (u, -a)]
  | .tanh => [(u, half * log ((one + rhs) / (one - rhs)))]

/-- The equations that a power equal to `rhs` comes down to. An even whole exponent has roots of both signs. -/
def undoPower? (name : String) (b x rhs : Expr) : Option (List (Expr × Expr)) :=
  if !x.hasVar name then
    let r := power rhs x.inverse
    match x.smallInt? with
    | some m => if m.emod 2 = 0 then some [(b, r), (b, -r)] else some [(b, r)]
    | none => some [(b, r)]
  else if !b.hasVar name then some [(x, apply .log rhs / apply .log b)]
  else none

/-- The equations that `h = rhs` comes down to, if its outermost operation can be undone. -/
def undo? (name : String) (h rhs : Expr) : Option (List (Expr × Expr)) :=
  match h with
  | pow b x => undoPower? name b x rhs
  | fn f u => some (undoFunc f u rhs)
  | _ => none

/-- Splits a term into its factors without and with the variable. -/
def splitFactors (name : String) (g : Expr) : Expr × Expr :=
  match g with
  | mul fs =>
    (product (fs.filter fun f => !f.hasVar name), product (fs.filter fun f => f.hasVar name))
  | _ => (one, g)

/-- Where the variable stands in one term of a sum only, the equations that remain when the outermost
operation on it is undone. -/
def invert? (n : Expr) (name : String) : Option (List (Expr × Expr)) :=
  match n.terms.filter (hasVar name) with
  | [g] =>
    let c := -sum (n.terms.filter fun t => !t.hasVar name)
    let (k, h) := splitFactors name g
    if k.isZero then none else undo? name h (c / k)
  | _ => none

/-! ## Inner unknowns -/

/-- Whether an expression may serve as an inner unknown: a function, or a power that is no whole power. -/
def isInnerUnknown (name : String) : Expr → Bool
  | fn _ _ => true
  | pow b x => x.hasVar name || (b.hasVar name && x.smallInt?.isNone)
  | _ => false

/-- The inner expressions that may serve as an unknown, each once. -/
def innerUnknowns (n : Expr) (name : String) : List Expr :=
  distinct ((subtrees n).tail.filter fun x => isInnerUnknown name x && x.hasVar name)

/-- Writes an exponential `exp (c u)` as the `c`-th power of the new unknown for `exp u`. -/
def exponentialRule (u t : Expr) : Expr → Option Expr
  | pow b w =>
    if b = e then
      let c := (w / u).simplify
      c.smallInt?.map fun _ => power t c
    else none
  | _ => none

/-- Writes an expression with a new unknown in place of an inner expression. -/
def withInnerUnknown (n k : Expr) (fresh : String) : Expr :=
  let t := var fresh
  let q := n.replace k t
  match k with
  | pow b u => if b = e then q.replaceBy (exponentialRule u t) else q
  | _ => q

/-! ## Isolation -/

/-- Finds roots of an expression. -/
abbrev RootFinder := Expr → String → List Expr

/-- The roots by an inner unknown: first the values of the unknown, then the roots for each. -/
def rootsByInnerUnknown (deeper : RootFinder) (n : Expr) (name fresh : String) : List Expr :=
  ((innerUnknowns n name).findSome? fun k =>
    let q := withInnerUnknown n k fresh
    if q.hasVar name then none
    else
      match (deeper q fresh).flatMap fun r => deeper (k - r) name with
      | [] => none
      | roots => some roots).getD []

/-- The roots of a polynomial with the given coefficients, rational or symbolic. -/
def rootsOfCoefficients (n : Expr) (name : String) (cs : List Expr) : List Expr :=
  match n.ratPoly? name with
  | some p => (polynomialRoots? p true).getD []
  | none =>
    match cs with
    | [c0, c1] => [-c0 / c1]
    | [c0, c1, c2] => quadraticRoots c2 c1 c0 true
    | _ => []

/-- The roots of a numerator by its form. -/
def rootsByForm (deeper : RootFinder) (n : Expr) (name fresh : String) : List Expr :=
  let expanded := n.expand
  match expanded.coefficients? name with
  | some cs => rootsOfCoefficients expanded name cs
  | none =>
    match n with
    | mul fs => (fs.filter (hasVar name)).flatMap fun g => deeper g name
    | _ =>
      match invert? n name with
      | some equations =>
        (equations.filter fun eq => eq.2.isFinite).flatMap fun eq => deeper (eq.1 - eq.2) name
      | none => rootsByInnerUnknown deeper n name fresh

/-- The largest number of steps inside one another. -/
def isolationLevels : Nat := 9

/-- The roots at a level, with a given number of levels left. -/
def isolateAt : Nat → Nat → RootFinder
  | 0, _, _, _ => []
  | n + 1, level, f, name =>
    if !f.hasVar name then []
    else
      let q := f.toFraction
      excludePoles
        (rootsByForm (isolateAt n (level + 1)) q.num name ("_k" ++ toString level)) q.den name

/-- The exact roots of an expression, as far as the methods here go. -/
def isolate (f : Expr) (name : String) : List Expr := isolateAt isolationLevels 0 f name

/-- Whether a constant root makes the expression vanish numerically; roots with variables are trusted. -/
def confirms (f : Expr) (name : String) (root : Expr) : Bool :=
  if !root.isConstant then true
  else
    match root.evaluateConstant with
    | .error _ => false
    | .ok z =>
      match f.evaluate fun s => if s = name then some z else none with
      | .ok w => w.norm < 1e-7 * (1 + z.norm)
      | .error _ => !f.freeVars.all (· = name)

end Expr

/-- The third tier: exact roots of every kind, when the real tier found none or did not apply. -/
def genericTier : Tier := fun p v =>
  if v = .empty ∨ v = .unsolved then
    let roots := (p.f.isolate p.unknown).map Expr.simplify
    let confirmed := roots.filter fun r => r.isFinite && p.f.confirms p.unknown r
    exactOr v v (Expr.sortRoots confirmed)
  else (none, v)

end SymbolicSolver
