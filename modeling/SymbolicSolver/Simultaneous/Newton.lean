import SymbolicSolver.Calculus.Derivative
import SymbolicSolver.Number.FloatOrder
import SymbolicSolver.Number.NumericRoot
import SymbolicSolver.Settings

/-!
# Newton's iteration for systems

As many equations as unknowns are solved numerically from a grid of starting points: each step solves the
linear system of the Jacobian by elimination with partial pivoting.
-/

namespace SymbolicSolver.Simultaneous.Newton

/-! ## Linear systems -/

/-- A row of a linear system: its coefficients and its right-hand side. -/
abbrev Row := List Float × Float

/-- The row with the largest leading coefficient, the last one among equals, and the other rows with the
first row in its place. -/
def choosePivot (first : Row) (rest : List Row) : Row × List Row :=
  let lead (r : Row) : Float := (r.1.head?.getD 0).abs
  let step (best : Nat × Row) (r : Row × Nat) : Nat × Row :=
    if (compareFloat (lead best.2) (lead r.1)).isLE then (r.2 + 1, r.1) else best
  let best := rest.zipIdx.foldl step (0, first)
  if best.1 = 0 then (first, rest) else (best.2, rest.set (best.1 - 1) first)

/-- Subtracts a multiple of the pivot row so that the leading coefficient goes away. -/
def eliminateRow (pivot : Row) (r : Row) : Row :=
  let factor := r.1.head?.getD 0 / pivot.1.head?.getD 0
  (List.zipWith (fun a p => a - factor * p) r.1.tail pivot.1.tail, r.2 - factor * pivot.2)

/-- Solves a square linear system of the given size, unless a pivot vanishes. -/
def solveLinear? : Nat → List Row → Option (List Float)
  | 0, _ => some []
  | _ + 1, [] => none
  | n + 1, r :: rs =>
    let (pivot, rest) := choosePivot r rs
    let lead := pivot.1.head?.getD 0
    if lead.abs < 1e-300 then none
    else
      (solveLinear? n (rest.map (eliminateRow pivot))).map fun xs =>
        let s := (List.zipWith (· * ·) pivot.1.tail xs).foldl (· + ·) 0
        (pivot.2 - s) / lead :: xs

/-! ## Iteration -/

/-- A point as an assignment of the unknowns. -/
def assignment (unknowns : List String) (x : List Float) : Assignment := fun s =>
  ((unknowns.zip x).find? fun p => p.1 = s).map fun p => ComplexFloat.real p.2

/-- The finite real value of an expression at a point. -/
def valueAt? (unknowns : List String) (x : List Float) (f : Expr) : Option Float :=
  match f.evaluate (assignment unknowns x) with
  | .error _ => none
  | .ok z =>
    if z.im.abs <= 1e-12 * (1 + z.re.abs) && z.re.isFinite then some z.re else none

/-- The Euclidean length of a vector. -/
def norm (x : List Float) : Float := (x.foldl (fun s v => s + v * v) 0).sqrt

/-- The step from a point: the solution of the linear system of the Jacobian. -/
def step? (jacobian : List (List Expr)) (unknowns : List String) (x values : List Float) :
    Option (List Float) :=
  (jacobian.mapM fun (row : List Expr) => row.mapM (valueAt? unknowns x)).bind fun rows =>
    solveLinear? values.length (rows.zip values)

/-- The iteration from a point: a root once all values are zero, or once the step is negligible and the values
small. -/
def iterate? (fs : List Expr) (jacobian : List (List Expr)) (unknowns : List String) :
    Nat → List Float → Option (List Float)
  | 0, _ => none
  | n + 1, x =>
    (fs.mapM (valueAt? unknowns x)).bind fun values =>
      if values.all (· == 0) then some x
      else
        (step? jacobian unknowns x values).bind fun step =>
          let x := List.zipWith (· - ·) x step
          if x.any fun v => !v.isFinite then none
          else if norm step <= 1e-14 * (1 + norm x) then
            (fs.mapM (valueAt? unknowns x)).bind fun values =>
              if values.all fun v => v.abs < 1e-9 then some x else none
          else iterate? fs jacobian unknowns n x

/-! ## Starting points -/

/-- The coordinates of the starting points. -/
def grid : List Float := [-2, -0.5, 0.5, 1, 2]

/-- All vectors of the given length over the grid. -/
def gridVectors : Nat → List (List Float)
  | 0 => [[]]
  | n + 1 => grid.flatMap fun g => (gridVectors n).map (g :: ·)

/-- The starting points: the whole grid for up to three unknowns, and its diagonal beyond. -/
def startingPoints (n : Nat) : List (List Float) :=
  if 3 < n then grid.map (List.replicate n) else gridVectors n

/-- Whether two points are the same root. -/
def samePoint (a b : List Float) : Bool :=
  (List.zipWith NumericRoot.closeFloats a b).all id

/-- The roots found from the starting points, rounded, each once. -/
def roots (fs : List Expr) (unknowns : List String) (settings : Settings) : List (List Float) :=
  let jacobian := fs.map fun f => unknowns.map fun v => Expr.derivative v f
  (startingPoints unknowns.length).foldl
    (fun out x0 =>
      match iterate? fs jacobian unknowns settings.newtonSteps x0 with
      | none => out
      | some x =>
        let x := x.map fun v => NumericRoot.roundPlaces v settings.rootDigits
        if out.any fun r => samePoint r x then out else out ++ [x]) []

end SymbolicSolver.Simultaneous.Newton
