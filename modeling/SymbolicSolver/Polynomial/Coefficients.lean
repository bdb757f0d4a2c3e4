import SymbolicSolver.Expr.Expand
import SymbolicSolver.Polynomial.Basic

/-!
# Expressions as polynomials

The coefficients of an expression in one variable, after expansion, and the way back. An expression is a
polynomial when the variable occurs in whole powers only, one per term.
-/

namespace SymbolicSolver.Expr

/-! ## Terms -/

mutual

/-- The degree of a term in which the variable occurs, if it occurs once and as a whole power. -/
def varDegree? (name : String) : Expr → Option Nat
  | var s => if s = name then some 1 else none
  | pow b x =>
    if b = var name then
      x.smallInt?.bind fun n =>
        if 0 ≤ n && n.natAbs ≤ maxDegree then some n.natAbs else none
    else none
  | mul fs => varDegreeAll? name fs
  | _ => none

/-- The degree of a product, if exactly one factor holds the variable. -/
def varDegreeAll? (name : String) : List Expr → Option Nat
  | [] => none
  | f :: fs =>
    if f.hasVar name then
      if fs.any (hasVar name) then none else varDegree? name f
    else varDegreeAll? name fs

end

/-- The degree of a term and what multiplies the power of the variable. -/
def monomial? (name : String) (t : Expr) : Option (Nat × Expr) :=
  if !t.hasVar name then some (0, t)
  else
    (varDegree? name t).map fun k =>
      match t with
      | mul fs => (k, product (fs.filter fun f => !f.hasVar name))
      | _ => (k, one)

/-! ## Coefficients -/

def dropZeroLead : List Expr → List Expr
  | [] => []
  | c :: cs =>
    match dropZeroLead cs with
    | [] => if c.isZero then [] else [c]
    | d :: ds => c :: d :: ds

/-- The coefficients of an expression as a polynomial in a variable, lowest degree first and without zeros
at the end; the zero polynomial has the single coefficient zero. -/
def coefficients? (x : Expr) (name : String) : Option (List Expr) :=
  (x.expand.terms.mapM (monomial? name)).map fun ms =>
    let degree := (ms.map (·.1)).foldl max 0
    let cs := (List.range (degree + 1)).map fun k =>
      sum ((ms.filter fun m => m.1 = k).map (·.2))
    match dropZeroLead cs with
    | [] => [zero]
    | cs => cs

/-- The degree of an expression as a polynomial in a variable. -/
def degreeIn? (x : Expr) (name : String) : Option Nat :=
  (x.coefficients? name).map fun cs => cs.length - 1

/-- The expression as a polynomial with rational coefficients. -/
def ratPoly? (x : Expr) (name : String) : Option RatPoly :=
  (x.coefficients? name).bind fun cs => (cs.mapM rat?).map RatPoly.ofList

/-- The terms of a polynomial, the first one having degree `k`. -/
def polyTerms (name : String) : Nat → List Rat → List Expr
  | _, [] => []
  | k, c :: cs =>
    let rest := polyTerms name (k + 1) cs
    if c = 0 then rest else product [rat c, power (var name) (int k)] :: rest

/-- A polynomial as an expression. -/
def ofRatPoly (p : RatPoly) (name : String) : Expr := sum (polyTerms name 0 p.coeffs)

end SymbolicSolver.Expr
