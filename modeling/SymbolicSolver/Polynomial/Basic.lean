import SymbolicSolver.Number.Root

/-!
# Polynomials with rational coefficients

A polynomial is the list of its coefficients, lowest degree first, and the last one is not zero; the zero
polynomial is the empty list. Division with remainder follows the list: the quotient and remainder of
`a + x p` come from those of `p`, and one multiple of the divisor lowers the degree again.
-/

namespace SymbolicSolver

/-- Removes the zeros at the end of a list of coefficients. -/
def stripZeros : List Rat → List Rat
  | [] => []
  | c :: cs =>
    match stripZeros cs with
    | [] => if c = 0 then [] else [c]
    | d :: ds => c :: d :: ds

theorem getLast?_stripZeros (cs : List Rat) : (stripZeros cs).getLast? ≠ some 0 := by
  induction cs with
  | nil => simp [stripZeros]
  | cons c cs ih =>
    unfold stripZeros
    split
    · split <;> simp_all
    · rename_i d ds h
      rw [h] at ih
      simpa [List.getLast?_cons_cons] using ih

theorem length_stripZeros_le (cs : List Rat) : (stripZeros cs).length ≤ cs.length := by
  induction cs with
  | nil => simp [stripZeros]
  | cons c cs ih =>
    unfold stripZeros
    split
    · split <;> simp
    · rename_i d ds h
      rw [h] at ih
      simpa using ih

/-- A polynomial in one variable over the rationals. -/
structure RatPoly where
  coeffs : List Rat
  lead_ne_zero : coeffs.getLast? ≠ some 0

namespace RatPoly

instance : DecidableEq RatPoly := fun p q =>
  decidable_of_iff (p.coeffs = q.coeffs) (by cases p; cases q; simp)

/-- The polynomial with the given coefficients, lowest degree first. -/
def ofList (cs : List Rat) : RatPoly := ⟨stripZeros cs, getLast?_stripZeros cs⟩

/-- The zero polynomial. -/
def zero : RatPoly := ofList []

def isZero (p : RatPoly) : Bool := p.coeffs.isEmpty

/-- The degree; the zero polynomial has none. -/
def degree? (p : RatPoly) : Option Nat :=
  match p.coeffs with
  | [] => none
  | _ :: cs => some cs.length

/-- The leading coefficient, zero for the zero polynomial. -/
def lead (p : RatPoly) : Rat := p.coeffs.getLast?.getD 0

/-- The coefficient of a power. -/
def coeff (p : RatPoly) (k : Nat) : Rat := p.coeffs.getD k 0

/-! ## Values and products -/

/-- The value of a list of coefficients at a point. -/
def evalList (x : Rat) : List Rat → Rat
  | [] => 0
  | c :: cs => evalList x cs * x + c

/-- The value at a point. -/
def eval (p : RatPoly) (x : Rat) : Rat := evalList x p.coeffs

/-- Multiplies every coefficient. -/
def scale (p : RatPoly) (c : Rat) : RatPoly := ofList (p.coeffs.map (· * c))

/-- Coefficientwise sum of two lists. -/
def addList : List Rat → List Rat → List Rat
  | [], ys => ys
  | xs, [] => xs
  | x :: xs, y :: ys => (x + y) :: addList xs ys

/-- Product of two lists of coefficients. -/
def mulList : List Rat → List Rat → List Rat
  | [], _ => []
  | x :: xs, ys => addList (ys.map (x * ·)) (0 :: mulList xs ys)

def mul (p q : RatPoly) : RatPoly := ofList (mulList p.coeffs q.coeffs)

def sub (p q : RatPoly) : RatPoly := ofList (addList p.coeffs (q.coeffs.map (- ·)))

/-- The derivatives of the terms, the first one having degree `k`. -/
def derivativeFrom : Nat → List Rat → List Rat
  | _, [] => []
  | k, c :: cs => c * (k : Rat) :: derivativeFrom (k + 1) cs

/-- The derivative. -/
def derivative (p : RatPoly) : RatPoly := ofList (derivativeFrom 1 p.coeffs.tail)

/-! ## Division -/

/-- Subtracts a multiple of the divisor and drops the leading place. -/
def reduceLead (c : Rat) (d r : List Rat) : List Rat :=
  (List.zipWith (fun x y => x - c * y) r d).dropLast

/-- Quotient and remainder of a list of coefficients by a divisor with the given leading coefficient. The
remainder has fewer places than the divisor. -/
def divList (d : List Rat) (lead : Rat) : List Rat → List Rat × List Rat
  | [] => ([], [])
  | a :: p =>
    let (q, r) := divList d lead p
    let r := a :: r
    if r.length < d.length then (0 :: q, r)
    else
      let c := r.getLast?.getD 0 / lead
      (c :: q, reduceLead c d r)

theorem length_divList_snd (d : List Rat) (lead : Rat) (hd : d ≠ []) (p : List Rat) :
    (divList d lead p).2.length < d.length := by
  have hpos : 0 < d.length := List.length_pos_iff.2 hd
  induction p with
  | nil => simpa [divList] using hpos
  | cons a p ih =>
    unfold divList
    split
    rename_i q r h
    rw [h] at ih
    dsimp only at ih ⊢
    split
    · assumption
    · simp only [reduceLead, List.length_dropLast, List.length_zipWith, List.length_cons]
      omega

/-- Quotient and remainder. Division by zero has quotient zero and leaves everything. -/
def divMod (p d : RatPoly) : RatPoly × RatPoly :=
  if d.isZero then (zero, p)
  else
    let (q, r) := divList d.coeffs d.lead p.coeffs
    (ofList q, ofList r)

theorem length_divMod_snd (p d : RatPoly) (hd : d.isZero = false) :
    (p.divMod d).2.coeffs.length < d.coeffs.length := by
  have hne : d.coeffs ≠ [] := by
    intro h
    simp [isZero, h] at hd
  have h := length_divList_snd d.coeffs d.lead hne p.coeffs
  unfold divMod
  simp only [hd, Bool.false_eq_true, if_false]
  exact Nat.lt_of_le_of_lt (length_stripZeros_le _) h

/-- Divides by the leading coefficient. -/
def monic (p : RatPoly) : RatPoly := ofList (p.coeffs.map (· / p.lead))

/-- Euclid's algorithm. -/
def euclid (a b : RatPoly) : RatPoly :=
  if _h : b.isZero = false then euclid b (a.divMod b).2 else a
termination_by b.coeffs.length
decreasing_by exact length_divMod_snd a b _h

/-- The monic greatest common divisor; zero if both are zero. -/
def gcd (a b : RatPoly) : RatPoly := (euclid a b).monic

/-- The values at `r` of a list of coefficients and of all its tails. -/
def tailValues (r : Rat) : List Rat → List Rat
  | [] => []
  | c :: cs =>
    match tailValues r cs with
    | [] => [c]
    | b :: bs => (b * r + c) :: b :: bs

/-- The quotient by `x - r`. -/
def deflate (p : RatPoly) (r : Rat) : RatPoly := ofList (tailValues r p.coeffs.tail)

end RatPoly

end SymbolicSolver
