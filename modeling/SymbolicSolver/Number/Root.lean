/-!
# Integer roots

Floor roots of naturals by Newton's iteration, exact roots of integers, and the part of an integer that
is a perfect `q`-th power.

The iteration starts at a power of two that is not below the root and walks down. It stops at the first
guess that the step does not lower, and that guess is the floor of the root. Square roots have an iteration
of their own, which ends with the step itself and then moves to the floor one by one.
-/

namespace SymbolicSolver

/-- The number of binary digits of `n`; zero has none. -/
def bitLength (n : Nat) : Nat :=
  if n = 0 then 0 else n.log2 + 1

/-! ## Floor roots -/

/-- One Newton step towards the `q`-th root of `n` from the guess `y`. -/
def rootStep (q n y : Nat) : Nat :=
  ((q - 1) * y + n / y.pow (q - 1)) / q

/-- Repeats the Newton step for as long as it lowers the guess. -/
def rootDescent (q n y : Nat) : Nat :=
  if rootStep q n y < y then rootDescent q n (rootStep q n y) else y
termination_by y

/-- The largest natural whose `q`-th power is at most `n`, for `q` at least one. -/
def floorRoot (q n : Nat) : Nat :=
  rootDescent q n (Nat.pow 2 ((bitLength n + q - 1) / q))

/-! ## Square roots -/

/-- One Newton step towards the square root of `n`. It divides by the guess, so there is none from zero. -/
def sqrtStep? (n y : Nat) : Option Nat :=
  if y = 0 then none else some ((y + n / y) / 2)

/-- Repeats the step for as long as it lowers the guess, and ends with the first that does not. -/
def sqrtDescent? (n y : Nat) : Option Nat :=
  match sqrtStep? n y with
  | none => none
  | some next => if next < y then sqrtDescent? n next else some next
termination_by y

/-- Goes up from `z` for as long as the square of the next number is at most `n`. -/
def raiseRoot (n z : Nat) : Nat :=
  if (z + 1) * (z + 1) ≤ n then raiseRoot n (z + 1) else z
termination_by n - z
decreasing_by
  have := Nat.le_mul_self (z + 1)
  omega

/-- Goes down from `z` to the first number whose square is at most `n`. -/
def lowerRoot (n z : Nat) : Nat :=
  if n < z * z then lowerRoot n (z - 1) else z
termination_by z
decreasing_by
  have : z ≠ 0 := by
    rintro rfl
    omega
  omega

/-- The floor of the square root of `x`, unless the iteration meets the guess zero; what is not positive has
root zero here. -/
def floorSqrt? (x : Int) : Option Nat :=
  if x ≤ 0 then some 0
  else
    let n := x.toNat
    (sqrtDescent? n (Nat.pow 2 ((bitLength n + 1) / 2))).map fun z => lowerRoot n (raiseRoot n z)

/-- From a positive guess the iteration never comes to the guess zero. -/
theorem sqrtDescent?_isSome {n y : Nat} (hn : 0 < n) (hy : 0 < y) : (sqrtDescent? n y).isSome := by
  fun_induction sqrtDescent? n y with
  | case1 y hstep =>
    rw [sqrtStep?, if_neg (by omega)] at hstep
    cases hstep
  | case2 y next hstep hlt ih =>
    refine ih ?_
    rw [sqrtStep?, if_neg (by omega), Option.some.injEq] at hstep
    have hone : y = 1 → n / y = n := fun h => by rw [h, Nat.div_one]
    generalize n / y = d at hstep hone
    omega
  | case3 => rfl

theorem floorSqrt?_isSome (x : Int) : (floorSqrt? x).isSome := by
  unfold floorSqrt?
  split
  · rfl
  · rw [Option.isSome_map]
    exact sqrtDescent?_isSome (by omega) (Nat.two_pow_pos _)

/-- The floor of the square root; negative integers have root zero here. -/
def floorSqrt (x : Int) : Nat :=
  (floorSqrt? x).get (floorSqrt?_isSome x)

/-! ## Exact roots -/

/-- The natural whose `q`-th power is `x`, if there is one. `root` finds the candidate for every index but
two. -/
def exactRootBy? (root : Nat → Nat → Nat) (q : Nat) (x : Int) : Option Nat :=
  if x < 0 ∨ q = 0 then none
  else
    let s := if q = 2 then floorSqrt x else root q x.toNat
    if s.pow q = x.toNat then some s else none

/-- The natural whose `q`-th power is `x`, if there is one. -/
def exactRoot? (q : Nat) (x : Int) : Option Nat := exactRootBy? floorRoot q x

/-! ## Perfect powers -/

/-- Divides `d` out of `n` as often as it goes: the number of times and what is left. -/
def divideOut (d n : Nat) : Nat × Nat :=
  if _h : 2 ≤ d ∧ 0 < n ∧ n % d = 0 then
    let rest := divideOut d (n / d)
    (rest.1 + 1, rest.2)
  else (0, n)
termination_by n
decreasing_by exact Nat.div_lt_self _h.2.1 _h.1

/-- Trial divisors go up to this bound; larger factors stay under the root. -/
def trialBound : Nat := 100000

/-- The trial divisor after `p`: three after two, then every odd number. -/
def nextTrial (p : Nat) : Nat :=
  if p = 2 then 3 else p + 2

theorem lt_nextTrial (p : Nat) : p < nextTrial p := by
  unfold nextTrial
  split <;> omega

/-- Moves the `q`-th powers of the trial divisors from `p` on out of `rest` and their roots into `s`. -/
def extractFrom (q p s rest : Nat) : Nat × Nat :=
  if _h : p.pow q ≤ rest ∧ p ≤ trialBound then
    let out := divideOut (p.pow q) rest
    extractFrom q (nextTrial p) (s * p.pow out.1) out.2
  else (s, rest)
termination_by trialBound + 1 - p
decreasing_by
  have := lt_nextTrial p
  have := _h.2
  omega

/-- Writes `n` as `s ^ q * t`, with no `q`-th power of a trial divisor left in `t`. Zero, one, negative
integers and indices below two are left whole. -/
def extractPower (q : Nat) (n : Int) : Int × Int :=
  if n ≤ 1 ∨ q < 2 then (1, n)
  else
    let parts := extractFrom q 2 1 n.toNat
    (parts.1, parts.2)

end SymbolicSolver
