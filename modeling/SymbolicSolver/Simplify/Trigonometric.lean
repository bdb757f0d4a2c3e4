import SymbolicSolver.Expr.Parts
import SymbolicSolver.Expr.Substitution

/-!
# Trigonometric identities

Shifts by quarter turns, the Pythagorean identities, and the tangent as a quotient. One pass treats a tree
from the leaves up; passes repeat, at most six times, for as long as the tree does not grow.
-/

namespace SymbolicSolver.Expr

/-! ## Shifts by quarter turns -/

/-- A circular function of `u` and a number of quarter turns below four. -/
def shifted (f : Func) (u : Expr) (quarters : Int) : Expr :=
  match f, quarters with
  | .sin, 0 => apply .sin u
  | .sin, 1 => apply .cos u
  | .sin, 2 => -apply .sin u
  | .sin, _ => -apply .cos u
  | .cos, 0 => apply .cos u
  | .cos, 1 => -apply .sin u
  | .cos, 2 => -apply .cos u
  | .cos, _ => apply .sin u
  | _, k => if k.emod 2 = 0 then apply .tan u else -apply .cot u

/-- The nonzero multiple of `π` that a term is. -/
def halfTurns? (t : Expr) : Option Rat := t.piCoeff?.filter (· ≠ 0)

/-- Takes whole quarter turns out of the argument of a sine, cosine or tangent. -/
def shiftRule : Expr → Option Expr
  | fn f (add ts) =>
    if f = .sin || f = .cos || f = .tan then
      ((splits ts).findSome? fun s => (halfTurns? s.2.1).map fun c => (c, s.1 ++ s.2.2)).bind
        fun found =>
          let quarters := Rational.reduceMod (found.1 * 2) 4
          if quarters.den = 1 then some (shifted f (sum found.2) quarters.num) else none
    else none
  | _ => none

/-! ## Pythagorean identities -/

/-- The square of a function. -/
def squareOf (f : Func) (u : Expr) : Expr := power (apply f u) (int 2)

/-- The argument of a function that stands squared. -/
def squaredArg? (f : Func) : Expr → Option Expr
  | pow (fn g u) x => if g = f && x.smallInt? = some 2 then some u else none
  | _ => none

/-- In a term with a factor `sin(u)²`, the term with `cos(u)²` in its place and the term without it. -/
def sinSquareParts (t : Expr) : List (Expr × Expr) :=
  (splits t.factors).filterMap fun s =>
    (squaredArg? .sin s.2.1).map fun u =>
      (product (s.1 ++ squareOf .cos u :: s.2.2), product (s.1 ++ s.2.2))

/-- `c sin(u)² + c cos(u)²` becomes `c`. -/
def pythagoreanRule : Expr → Option Expr
  | add ts =>
    (splits ts).findSome? fun s =>
      (sinSquareParts s.2.1).findSome? fun parts =>
        let others := s.1 ++ s.2.2
        if others.contains parts.1 then some (sum (others.erase parts.1 ++ [parts.2])) else none
  | _ => none

/-- Where `c f(u)²` is a term and `-c` the rational term, the two are minus `c` times the other square. -/
def complementOf (constant : Rat) (others : List Expr) (t : Expr) (f g : Func) : Option Expr :=
  (squaredArg? f t.splitCoeff.2).bind fun u =>
    if t.splitCoeff.1 + constant = 0 then
      some (sum (others ++ [product [rat (-t.splitCoeff.1), squareOf g u]]))
    else none

/-- `c sin(u)² - c` becomes `-c cos(u)²`, and the same with sine and cosine exchanged. -/
def complementRule : Expr → Option Expr
  | add ts =>
    (ts.findSome? rat?).bind fun constant =>
      (splits ts).findSome? fun s =>
        let others := (s.1 ++ s.2.2).filter fun w => w.rat?.isNone
        (complementOf constant others s.2.1 .sin .cos).or
          (complementOf constant others s.2.1 .cos .sin)
  | _ => none

/-! ## Tangent -/

/-- The argument of a sine. -/
def sinArg? : Expr → Option Expr
  | fn .sin u => some u
  | _ => none

/-- `sin(u) / cos(u)` becomes `tan(u)`. -/
def tangentRule : Expr → Option Expr
  | mul fs =>
    (splits fs).findSome? fun s =>
      (sinArg? s.2.1).bind fun u =>
        let others := s.1 ++ s.2.2
        let target := inverse (apply .cos u)
        if others.contains target then some (product (others.erase target ++ [apply .tan u])) else none
  | _ => none

/-! ## Passes -/

/-- Applies the first rule that fits. -/
def applyRules (x : Expr) : Expr :=
  ((shiftRule x).or ((pythagoreanRule x).or ((complementRule x).or (tangentRule x)))).getD x

mutual

/-- One pass, from the leaves up. -/
def trigPass : Expr → Expr
  | add ts => applyRules (sum (trigPassAll ts))
  | mul fs => applyRules (product (trigPassAll fs))
  | pow b x => applyRules (power (trigPass b) (trigPass x))
  | fn f x => applyRules (apply f (trigPass x))
  | x => applyRules x

/-- One pass over every expression of a list. -/
def trigPassAll : List Expr → List Expr
  | [] => []
  | x :: xs => trigPass x :: trigPassAll xs

end

mutual

/-- The number of nodes on the longest way from the root to a leaf. -/
def depth : Expr → Nat
  | add xs => depthAll xs + 1
  | mul xs => depthAll xs + 1
  | pow b x => max (depth b) (depth x) + 1
  | fn _ x => depth x + 1
  | _ => 1

/-- The largest depth in a list; an empty list has depth zero. -/
def depthAll : List Expr → Nat
  | [] => 0
  | x :: xs => max (depth x) (depthAll xs)

end

/-- Whether a tree is no larger than another, in nodes and then in depth. -/
def noLarger (a b : Expr) : Bool :=
  a.size < b.size || (a.size = b.size && a.depth ≤ b.depth)

/-- Repeats passes, a given number of times at most, while the tree changes and does not grow. -/
def trigPasses : Nat → Expr → Expr
  | 0, x => x
  | n + 1, x =>
    let y := trigPass x
    if y ≠ x ∧ noLarger y x then trigPasses n y else x

/-- Applies the trigonometric identities. -/
def trigIdentities (x : Expr) : Expr := trigPasses 6 x

end SymbolicSolver.Expr
