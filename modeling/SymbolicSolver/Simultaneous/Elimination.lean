import SymbolicSolver.Equation.Solve

/-!
# Elimination

A system of equations `f = 0` is solved by eliminating one unknown at a time: an unknown in which some
equation is affine, with a coefficient free of unknowns, or else the only unknown of an equation with exact
roots, each of which opens a branch. What is found for the remaining unknowns is put back into the value of
the eliminated one.
-/

namespace SymbolicSolver

/-- Values of unknowns, sorted by name. -/
abbrev Bindings := List (String × Expr)

namespace Bindings

/-- Adds the value of a name, in its place. -/
def insert (name : String) (x : Expr) : Bindings → Bindings
  | [] => [(name, x)]
  | (s, y) :: rest =>
    if name < s then (name, x) :: (s, y) :: rest
    else if name = s then (name, x) :: rest
    else (s, y) :: insert name x rest

/-- The value of a name. -/
def find? (bs : Bindings) (name : String) : Option Expr :=
  (List.find? (fun b => b.1 = name) bs).map (·.2)

/-- Puts the values into an expression, one after the other. -/
def substAll (bs : Bindings) (x : Expr) : Expr :=
  bs.foldl (fun x b => x.subst b.1 b.2) x

/-- The value of a name with the other values put into it, added to them. -/
def extend (bs : Bindings) (name : String) (x : Expr) : Bindings :=
  bs.insert name (bs.substAll x).simplify

/-- Every unknown stands for itself. -/
def free (unknowns : List String) : Bindings := unknowns.map fun v => (v, .var v)

end Bindings

namespace Elimination

/-- Whether an unknown occurs. -/
def mentions (unknowns : List String) (x : Expr) : Bool := unknowns.any fun v => x.hasVar v

/-- Simplifies the equations and drops those that hold; a constant that does not vanish makes the system
inconsistent. -/
def openEquations? (unknowns : List String) : List Expr → Option (List Expr)
  | [] => some []
  | f :: fs =>
    let f := f.simplify
    if f.isZero then openEquations? unknowns fs
    else if mentions unknowns f then (openEquations? unknowns fs).map (f :: ·)
    else
      match f.evaluateConstant with
      | .ok z => if z.norm < 1e-12 then openEquations? unknowns fs else none
      | .error _ => none

/-- An equation to eliminate with: the unknown, its values, and the other equations. -/
structure Pivot where
  unknown : String
  values : List Expr
  others : List Expr

/-- The value of an unknown in which an expanded equation is affine, with a coefficient free of unknowns. -/
def affineValue? (unknowns : List String) (f : Expr) (v : String) : Option Expr :=
  match f.coefficients? v with
  | some [c0, c1] =>
    if c1.isZero || mentions unknowns c1 then none else some (-c0 / c1).simplify
  | _ => none

/-- The first unknown of the first equation that is affine in it. -/
def affinePivot? (unknowns : List String) (fs : List Expr) : Option Pivot :=
  (splits fs).findSome? fun s =>
    let f := s.2.1.expand
    (unknowns.filter fun v => f.hasVar v).findSome? fun v =>
      (affineValue? unknowns f v).map fun x => ⟨v, [x], s.1 ++ s.2.2⟩

/-- The first equation in a single unknown that has exact roots. -/
def rootPivot? (settings : Settings) (unknowns : List String) (fs : List Expr) : Option Pivot :=
  (splits fs).findSome? fun s =>
    match unknowns.filter fun v => s.2.1.hasVar v with
    | [v] => (exactRoots? s.2.1 v settings).map fun roots => ⟨v, roots, s.1 ++ s.2.2⟩
    | _ => none

/-- The largest number of eliminations inside one another. -/
def levels : Nat := 13

/-- The solutions of each branch of a pivot, if every branch can be solved. -/
def branches? (solve : List Expr → List String → Option (List Bindings)) (unknowns : List String)
    (p : Pivot) : Option (List Bindings) :=
  let others := unknowns.filter (· ≠ p.unknown)
  (p.values.mapM fun x =>
    (solve (p.others.map fun f => f.subst p.unknown x) others).map fun ms =>
      ms.map fun m => m.extend p.unknown x).map List.flatten

/-- The solutions within a number of levels; no solution for an inconsistent system, and no answer where
neither kind of pivot is found. -/
def solveWithin (settings : Settings) : Nat → List Expr → List String → Option (List Bindings)
  | 0, _, _ => none
  | n + 1, fs, unknowns =>
    match openEquations? unknowns fs with
    | none => some []
    | some [] => some [Bindings.free unknowns]
    | some fs =>
      match affinePivot? unknowns fs with
      | some p => branches? (solveWithin settings n) unknowns p
      | none =>
        match rootPivot? settings unknowns fs with
        | some p => branches? (solveWithin settings n) unknowns p
        | none => none

/-- Solves a system by elimination. -/
def solve? (settings : Settings) (fs : List Expr) (unknowns : List String) :
    Option (List Bindings) :=
  solveWithin settings levels fs unknowns

end Elimination

end SymbolicSolver
