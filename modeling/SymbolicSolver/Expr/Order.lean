import SymbolicSolver.Expr.Basic

/-!
# The order of expressions

Sums and products keep their operands sorted. The order compares a rank by kind of node and then a
textual key that spells out the whole tree; terms of a sum are first sorted by falling degree, and
factors of a product by their base.
-/

namespace SymbolicSolver.Expr

/-- The rank of a node by its kind. -/
def rank : Expr → Nat
  | rat _ => 0
  | i => 1
  | pi => 2
  | e => 3
  | var _ => 4
  | fn _ _ => 5
  | pow _ _ => 6
  | mul _ => 7
  | add _ => 8
  | infinity => 9
  | undefined => 255

mutual

/-- A text that spells out the tree. -/
def key : Expr → String
  | rat q => "R" ++ toString q.num ++ "/" ++ toString q.den
  | pi => "PI"
  | e => "E"
  | i => "I"
  | infinity => "OO"
  | undefined => "NAN"
  | var s => "VAR(" ++ s ++ ")"
  | add xs => "ADD(" ++ keyList xs ++ ")"
  | mul xs => "MUL(" ++ keyList xs ++ ")"
  | pow b x => "POW(" ++ key b ++ "," ++ key x ++ ")"
  | fn f x => f.capitalName ++ "(" ++ key x ++ ")"

/-- The keys of a list of trees, separated by commas. -/
def keyList : List Expr → String
  | [] => ""
  | [x] => key x
  | x :: y :: ys => key x ++ "," ++ keyList (y :: ys)

end

/-- Compares expressions by rank, then by key. -/
def compareTree (a b : Expr) : Ordering :=
  (compare a.rank b.rank).then (compare a.key b.key)

/-! ## Factors -/

/-- The sorting key of a factor: powers go with their base, exponentials with the functions. -/
def factorKey : Expr → Nat × String × String
  | pow b x =>
    if b = e ∧ x.isConstant = false then (5, key (pow b x), "")
    else (b.rank, b.key, x.key)
  | x => (x.rank, x.key, "")

/-- Compares factors by their sorting keys, component by component. -/
def compareFactors (a b : Expr) : Ordering :=
  let ka := a.factorKey
  let kb := b.factorKey
  (compare ka.1 kb.1).then ((compare ka.2.1 kb.2.1).then (compare ka.2.2 kb.2.2))

/-- Sorts factors; equal keys keep their order. -/
def sortFactors (fs : List Expr) : List Expr :=
  fs.mergeSort fun a b => (compareFactors a b).isLE

/-! ## Terms -/

mutual

/-- The total degree that orders the terms of a sum: of a power of a variable its exponent, of a product
the sum over its factors, and zero otherwise. -/
def degree : Expr → Rat
  | var _ => 1
  | pow (var _) (rat q) => q
  | mul fs => degreeAll fs
  | _ => 0

/-- The sum of the degrees of a list of factors. -/
def degreeAll : List Expr → Rat
  | [] => 0
  | f :: fs => degree f + degreeAll fs

end

/-- Compares rationals by size. -/
def compareRat (a b : Rat) : Ordering :=
  if a < b then .lt else if b < a then .gt else .eq

/-- The place of a term: rationals stand behind all finite terms and infinities last. -/
def termPlace : Expr → Nat
  | rat _ => 1
  | x => if x.infinitySign?.isSome then 2 else 0

/-- Compares terms by place, falling degree, what the coefficient multiplies, and key. -/
def compareTerms (a b : Expr) : Ordering :=
  (compare a.termPlace b.termPlace).then <|
    (compareRat b.degree a.degree).then <|
      (compareTree a.splitCoeff.2 b.splitCoeff.2).then (compare a.key b.key)

/-- Sorts terms; terms that compare equal keep their order. -/
def sortTerms (ts : List Expr) : List Expr :=
  ts.mergeSort fun a b => (compareTerms a b).isLE

end SymbolicSolver.Expr
