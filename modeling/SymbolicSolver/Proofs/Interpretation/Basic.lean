import Mathlib.Algebra.Algebra.Rat
import Mathlib.Algebra.BigOperators.Group.List.Lemmas
import Mathlib.Algebra.BigOperators.Ring.List
import Mathlib.Algebra.Field.Rat
import Mathlib.Algebra.GroupWithZero.Units.Basic
import Mathlib.Data.Nat.Prime.Basic
import Mathlib.Data.Rat.Lemmas
import Mathlib.Tactic.Linarith
import Mathlib.Tactic.LinearCombination
import Mathlib.Tactic.Ring
import SymbolicSolver.Proofs.Canonical.SquareRoot

/-!
# Values in an algebra

Expressions have values in any commutative algebra over the rationals once their variables and calls are read there.
Square roots of naturals and the imaginary unit are read as elements with the right squares where such elements are
given. A negative power needs an invertible base.

Over a field the values are those of a formula. Over dual numbers they are values together with their first-order
change, and this is how derivatives are compared with the change of a value.
-/

namespace SymbolicSolver

/-! ## Whole powers in a commutative ring -/

section IntPow

variable {A : Type*} [CommRing A]

/-- A power with a whole exponent; a negative exponent inverts. -/
noncomputable def intPow (a : A) (n : ℤ) : A :=
  if 0 ≤ n then a ^ n.toNat else Ring.inverse a ^ n.natAbs

@[simp] theorem intPow_natCast (a : A) (n : ℕ) : intPow a n = a ^ n := by simp [intPow]

@[simp] theorem intPow_zero (a : A) : intPow a 0 = 1 := by simp [intPow]

@[simp] theorem intPow_one (a : A) : intPow a 1 = a := by simp [intPow]

theorem intPow_neg_one (a : A) : intPow a (-1) = Ring.inverse a := by simp [intPow]

@[simp] theorem intPow_unit (u : Aˣ) (n : ℤ) : intPow (u : A) n = ((u ^ n : Aˣ) : A) := by
  cases n with
  | ofNat n => simp [intPow]
  | negSucc n => simp [intPow, zpow_negSucc]

@[simp] theorem one_intPow (n : ℤ) : intPow (1 : A) n = 1 := by simpa using intPow_unit (1 : Aˣ) n

theorem mul_intPow (a b : A) (n : ℤ) : intPow (a * b) n = intPow a n * intPow b n := by
  unfold intPow
  split
  · exact mul_pow a b _
  · rw [Ring.mul_inverse_rev, mul_comm, mul_pow]

theorem list_prod_intPow (as : List A) (n : ℤ) : intPow as.prod n = (as.map (intPow · n)).prod := by
  induction as with
  | nil => simp
  | cons a as ih => rw [List.prod_cons, mul_intPow, ih, List.map_cons, List.prod_cons]

/-- In a field these are the powers of the field. -/
theorem intPow_eq_zpow {K : Type*} [Field K] (a : K) (n : ℤ) : intPow a n = a ^ n := by
  cases n with
  | ofNat n => simp [intPow]
  | negSucc n => simp [intPow, zpow_negSucc, Ring.inverse_eq_inv']

/-- A homomorphism keeps powers of units and powers with a natural exponent. -/
theorem map_intPow {B : Type*} [CommRing B] (φ : A →+* B) {a : A} {n : ℤ} (h : IsUnit a ∨ 0 ≤ n) :
    φ (intPow a n) = intPow (φ a) n := by
  rcases h with ⟨u, rfl⟩ | h
  · have hmap : φ u = (Units.map (φ : A →* B) u : B) := rfl
    rw [intPow_unit, hmap, intPow_unit, ← map_zpow]
    rfl
  · obtain ⟨m, rfl⟩ := Int.eq_ofNat_of_zero_le h
    simp

end IntPow

/-! ## Interpretations -/

/-- What variables, calls, square roots of naturals and the imaginary unit stand for. -/
structure Interpretation (A : Type*) [CommRing A] where
  ofVar : String → A
  call? : Func → Expr → Option A
  root? : ℕ → Option A
  root_mul_self : ∀ n s, root? n = some s → s * s = n
  i? : Option A
  i_mul_self : ∀ j, i? = some j → j * j = -1
  /-- Whether anything to the power zero is one; otherwise only the powers of units are. -/
  lenient : Prop

namespace Interpretation

open Expr (rat var fn add mul pow i Radicand)

variable {A : Type*} [CommRing A]

/-! ## Admitted exponents -/

/-- Whether a value may be raised to a power. -/
def Admits (I : Interpretation A) (a : A) (n : ℤ) : Prop := IsUnit a ∨ 0 < n ∨ (n = 0 ∧ I.lenient)

section Admits

variable {I : Interpretation A}

theorem admits_one (a : A) : I.Admits a 1 := .inr (.inl one_pos)

theorem Admits.add {a : A} {m n : ℤ} (hm : I.Admits a m) (hn : I.Admits a n) : I.Admits a (m + n) := by
  rcases hm with hu | hm | ⟨rfl, hl⟩
  · exact .inl hu
  · rcases hn with hu | hn | ⟨rfl, -⟩
    · exact .inl hu
    · exact .inr (.inl (by omega))
    · exact .inr (.inl (by omega))
  · rwa [zero_add]

theorem Admits.unit_or_nonneg {a : A} {n : ℤ} (h : I.Admits a n) : IsUnit a ∨ 0 ≤ n :=
  h.imp_right (by omega)

theorem Admits.intPow_add {a : A} {m n : ℤ} (hm : I.Admits a m) (hn : I.Admits a n) :
    intPow a (m + n) = intPow a m * intPow a n := by
  by_cases hu : IsUnit a
  · obtain ⟨u, rfl⟩ := hu
    simp [zpow_add]
  · obtain ⟨k, rfl⟩ := Int.eq_ofNat_of_zero_le (hm.unit_or_nonneg.resolve_left hu)
    obtain ⟨l, rfl⟩ := Int.eq_ofNat_of_zero_le (hn.unit_or_nonneg.resolve_left hu)
    rw [← Nat.cast_add, intPow_natCast, intPow_natCast, intPow_natCast, pow_add]

/-- The exponents of a power of a power multiply. -/
theorem Admits.mul {a : A} {m n : ℤ} (hm : I.Admits a m) (hn : I.Admits (intPow a m) n) :
    I.Admits a (m * n) ∧ intPow a (m * n) = intPow (intPow a m) n := by
  by_cases hu : IsUnit a
  · obtain ⟨u, rfl⟩ := hu
    exact ⟨.inl u.isUnit, by simp [zpow_mul]⟩
  rcases hm with h | h | ⟨rfl, hl⟩
  · exact absurd h hu
  · obtain ⟨k, rfl⟩ := Int.eq_ofNat_of_zero_le h.le
    have hk : k ≠ 0 := by omega
    rw [intPow_natCast] at hn ⊢
    rcases hn with h' | h' | ⟨rfl, hl⟩
    · exact absurd ((isUnit_pow_iff hk).1 h') hu
    · obtain ⟨l, rfl⟩ := Int.eq_ofNat_of_zero_le h'.le
      refine ⟨.inr (.inl (by positivity)), ?_⟩
      rw [← Nat.cast_mul, intPow_natCast, intPow_natCast, pow_mul]
    · exact ⟨.inr (.inr ⟨mul_zero _, hl⟩), by simp⟩
  · exact ⟨.inr (.inr ⟨zero_mul n, hl⟩), by simp⟩

/-- Whatever a product may be raised to, its factors may. -/
theorem Admits.factor {as : List A} {n : ℤ} (h : I.Admits as.prod n) {a : A} (ha : a ∈ as) : I.Admits a n :=
  h.imp_left fun hu => isUnit_of_dvd_unit (List.dvd_prod ha) hu

end Admits

/-! ## Values -/

/-- The square root of a natural, where there is one. -/
def rootOf (I : Interpretation A) : Expr → A
  | .rat q => (I.root? q.num.natAbs).getD 0
  | _ => 0

/-- Whether an expression is a natural whose square root stands unevaluated and has a value. -/
def Rooted (I : Interpretation A) (b : Expr) : Prop := ∃ m : ℕ, b = .rat m ∧ Radicand m ∧ (I.root? m).isSome = true

variable [Algebra ℚ A]

mutual

/-- The value of an expression where it is defined; zero stands for a missing value. -/
noncomputable def eval (I : Interpretation A) : Expr → A
  | .rat q => algebraMap ℚ A q
  | .var s => I.ofVar s
  | .i => I.i?.getD 0
  | .fn f x => (I.call? f x).getD 0
  | .add ts => I.evalSum ts
  | .mul fs => I.evalProduct fs
  | .pow b (.rat q) => if q.den = 1 then intPow (I.eval b) q.num else intPow (I.rootOf b) q.num
  | _ => 0

/-- The sum of the values. -/
noncomputable def evalSum (I : Interpretation A) : List Expr → A
  | [] => 0
  | t :: ts => I.eval t + I.evalSum ts

/-- The product of the values. -/
noncomputable def evalProduct (I : Interpretation A) : List Expr → A
  | [] => 1
  | f :: fs => I.eval f * I.evalProduct fs

end

mutual

/-- Whether an expression has a value. Exponents are whole numbers, or halves of whole numbers above a natural whose
square root has a value. -/
def Defined (I : Interpretation A) : Expr → Prop
  | .rat _ => True
  | .var _ => True
  | .i => I.i?.isSome = true
  | .fn f x => (I.call? f x).isSome = true
  | .add ts => I.AllDefined ts
  | .mul fs => I.AllDefined fs
  | .pow b (.rat q) => (q.den = 1 ∧ I.Defined b ∧ I.Admits (I.eval b) q.num) ∨ (q.den = 2 ∧ I.Rooted b)
  | _ => False

/-- Whether every expression of a list has a value. -/
def AllDefined (I : Interpretation A) : List Expr → Prop
  | [] => True
  | x :: xs => I.Defined x ∧ I.AllDefined xs

end

variable {I : Interpretation A}

/-! ## The value of each node -/

theorem evalSum_eq (ts : List Expr) : I.evalSum ts = (ts.map I.eval).sum := by
  induction ts with
  | nil => rfl
  | cons t ts ih => simp [evalSum, ih]

theorem evalProduct_eq (fs : List Expr) : I.evalProduct fs = (fs.map I.eval).prod := by
  induction fs with
  | nil => rfl
  | cons f fs ih => simp [evalProduct, ih]

theorem allDefined_iff (xs : List Expr) : I.AllDefined xs ↔ ∀ x ∈ xs, I.Defined x := by
  induction xs with
  | nil => simp [AllDefined]
  | cons x xs ih => simp [AllDefined, ih]

@[simp] theorem eval_rat (q : ℚ) : I.eval (rat q) = algebraMap ℚ A q := rfl

@[simp] theorem eval_var (s : String) : I.eval (var s) = I.ofVar s := rfl

@[simp] theorem eval_add (ts : List Expr) : I.eval (add ts) = (ts.map I.eval).sum := evalSum_eq ts

@[simp] theorem eval_mul (fs : List Expr) : I.eval (mul fs) = (fs.map I.eval).prod := evalProduct_eq fs

@[simp] theorem defined_rat (q : ℚ) : I.Defined (rat q) := trivial

@[simp] theorem defined_var (s : String) : I.Defined (var s) := trivial

@[simp] theorem defined_add (ts : List Expr) : I.Defined (add ts) ↔ ∀ t ∈ ts, I.Defined t := allDefined_iff ts

@[simp] theorem defined_mul (fs : List Expr) : I.Defined (mul fs) ↔ ∀ f ∈ fs, I.Defined f := allDefined_iff fs

theorem defined_pow (b : Expr) (q : ℚ) : I.Defined (pow b (rat q)) ↔
    (q.den = 1 ∧ I.Defined b ∧ I.Admits (I.eval b) q.num) ∨ (q.den = 2 ∧ I.Rooted b) := Iff.rfl

@[simp] theorem eval_pow_int (b : Expr) (n : ℤ) : I.eval (pow b (rat n)) = intPow (I.eval b) n := by
  change (if (n : ℚ).den = 1 then _ else _) = _
  rw [if_pos (Rat.den_intCast n), Rat.num_intCast]

@[simp] theorem defined_pow_int (b : Expr) (n : ℤ) :
    I.Defined (pow b (rat n)) ↔ I.Defined b ∧ I.Admits (I.eval b) n := by
  simp [defined_pow, Rat.den_intCast, Rat.num_intCast]

@[simp] theorem not_defined_pi : ¬ I.Defined .pi := not_false

@[simp] theorem not_defined_e : ¬ I.Defined .e := not_false

@[simp] theorem not_defined_infinity : ¬ I.Defined .infinity := not_false

@[simp] theorem not_defined_undefined : ¬ I.Defined .undefined := not_false

/-- A power has a value only if its exponent is a rational leaf. -/
theorem Defined.exponent {b x : Expr} (h : I.Defined (pow b x)) : ∃ q, x = rat q := by
  cases x <;> simp [Defined] at h
  exact ⟨_, rfl⟩

theorem eval_add_cons (t : Expr) (ts : List Expr) : I.eval (add (t :: ts)) = I.eval t + I.eval (add ts) := rfl

theorem defined_add_cons (t : Expr) (ts : List Expr) :
    I.Defined (add (t :: ts)) ↔ I.Defined t ∧ I.Defined (add ts) := Iff.rfl

theorem eval_mul_cons (f : Expr) (fs : List Expr) : I.eval (mul (f :: fs)) = I.eval f * I.eval (mul fs) := rfl

theorem defined_mul_cons (f : Expr) (fs : List Expr) :
    I.Defined (mul (f :: fs)) ↔ I.Defined f ∧ I.Defined (mul fs) := Iff.rfl

theorem eval_mul_append (xs ys : List Expr) :
    I.eval (mul (xs ++ ys)) = I.eval (mul xs) * I.eval (mul ys) := by simp

theorem defined_mul_append (xs ys : List Expr) :
    I.Defined (mul (xs ++ ys)) ↔ I.Defined (mul xs) ∧ I.Defined (mul ys) := by
  simp only [defined_mul, List.mem_append, or_imp, forall_and]

theorem Defined.ne_undefined {x : Expr} (h : I.Defined x) : x ≠ .undefined := by
  rintro rfl
  exact not_defined_undefined h

/-! ## Half exponents -/

theorem isUnit_algebraMap {q : ℚ} (h : q ≠ 0) : IsUnit (algebraMap ℚ A q) := (IsUnit.mk0 q h).map (algebraMap ℚ A)

/-- A square root of a radicand is a unit. -/
theorem Rooted.isUnit_rootOf {b : Expr} (h : I.Rooted b) : IsUnit (I.rootOf b) := by
  obtain ⟨m, rfl, hm, hroot⟩ := h
  obtain ⟨s, hs⟩ := Option.isSome_iff_exists.1 hroot
  have hm0 : (m : ℚ) ≠ 0 := Nat.cast_ne_zero.2 hm.ne_zero
  have hsq : s * s = algebraMap ℚ A m := by rw [I.root_mul_self m s hs, map_natCast]
  have hrootOf : I.rootOf (.rat m) = s := by simp [rootOf, hs]
  rw [hrootOf]
  exact isUnit_of_mul_isUnit_left (hsq ▸ isUnit_algebraMap hm0)

/-- An odd number over two is in lowest terms. -/
theorem odd_div_two (j : ℤ) : (((2 * j + 1 : ℤ) : ℚ) / 2).den = 2 ∧ (((2 * j + 1 : ℤ) : ℚ) / 2).num = 2 * j + 1 := by
  have hcop : (2 * j + 1).natAbs.Coprime 2 := by
    rw [Nat.coprime_two_right, Int.natAbs_odd]
    exact odd_two_mul_add_one j
  constructor
  · exact_mod_cast Rat.den_div_eq_of_coprime (b := 2) (by norm_num) hcop
  · exact_mod_cast Rat.num_div_eq_of_coprime (b := 2) (by norm_num) hcop

/-- All halves of whole numbers are admitted above a natural whose square root has a value. -/
theorem Rooted.halfPowers {b : Expr} (h : I.Rooted b) : ∃ u : Aˣ, (u * u : A) = I.eval b ∧ ∀ k : ℤ,
    I.Defined (pow b (rat (k / 2))) ∧ I.eval (pow b (rat (k / 2))) = ((u ^ k : Aˣ) : A) := by
  obtain ⟨u, hu⟩ := h.isUnit_rootOf
  obtain ⟨m, rfl, hm, hroot⟩ := id h
  obtain ⟨s, hs⟩ := Option.isSome_iff_exists.1 hroot
  have hsq : (u * u : A) = I.eval (rat m) := by
    rw [hu, eval_rat, map_natCast, ← I.root_mul_self m s hs]
    simp [rootOf, hs]
  refine ⟨u, hsq, fun k => ?_⟩
  rcases Int.even_or_odd' k with ⟨j, rfl | rfl⟩
  · have hexp : (((2 * j : ℤ) : ℚ) / 2) = j := by
      push_cast
      ring
    rw [hexp, defined_pow_int, eval_pow_int, ← hsq, ← Units.val_mul, intPow_unit, zpow_mul, zpow_ofNat, sq]
    exact ⟨⟨defined_rat _, .inl (u * u).isUnit⟩, rfl⟩
  · obtain ⟨hden, hnum⟩ := odd_div_two j
    refine ⟨.inr ⟨hden, h⟩, ?_⟩
    change (if _ then _ else _) = _
    rw [if_neg (by rw [hden]; decide), hnum, ← hu, intPow_unit]

/-- The exponents of powers that have values. -/
theorem Defined.pow_cases {b : Expr} {q : ℚ} (h : I.Defined (pow b (rat q))) :
    (∃ n : ℤ, q = n ∧ I.Defined b ∧ I.Admits (I.eval b) n) ∨ (I.Rooted b ∧ ∃ k : ℤ, q = k / 2) := by
  rcases h with ⟨hden, hb, hn⟩ | ⟨hden, hb⟩
  · exact .inl ⟨q.num, (Rat.coe_int_num_of_den_eq_one hden).symm, hb, hn⟩
  · refine .inr ⟨hb, q.num, ?_⟩
    have hq := Rat.num_div_den q
    rw [hden] at hq
    exact_mod_cast hq.symm

end Interpretation

end SymbolicSolver
