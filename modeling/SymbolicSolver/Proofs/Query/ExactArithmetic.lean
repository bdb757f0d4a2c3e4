import SymbolicSolver.Proofs.Number.Bits
import SymbolicSolver.Proofs.Number.Double
import SymbolicSolver.Proofs.Polynomial.Quadratic
import SymbolicSolver.Proofs.Query.Arithmetic
import SymbolicSolver.Proofs.Simplify.Linear
import SymbolicSolver.Reply

/-!
# Plain arithmetic and exact arithmetic

Plain arithmetic rounds after every operation, while the reader of formulas computes with rationals and rounds its
result once. The two print the same digits where no operation but the last has anything to round: where floats hold the
operands of every operation.
-/

namespace SymbolicSolver.Query.Arithmetic

open Double (Representable Rounds Holds)
open Postfix (Tree)

/-! ## Exact values -/

/-- The value of an operator on rationals; of a power where the exponent is a whole number. -/
def Op.exact : Op → Rat → Rat → Rat
  | add, p, q => p + q
  | sub, p, q => p - q
  | mul, p, q => p * q
  | div, p, q => p / q
  | pow, p, q => p ^ q.num

/-- When an operator rounds its exact value once: quotients must not fall below the normal floats. The float power is
not specified beyond the standard library's promise of an approximation, so it has to be right on the operands; the
exact power is computed within limits only. -/
def Op.Sound : Op → Rat → Rat → Prop
  | div, p, q => q ≠ 0 ∧ (p = 0 ∨ -1074 ≤ Int.log 2 |p / q|)
  | pow, p, q => q.den = 1 ∧ (p ≠ 0 ∨ 0 ≤ q.num) ∧ Expr.powerFits p q.num = true ∧
      ∀ x y : Float, Holds x p → Holds y q → Rounds (x.pow y) (p ^ q.num)
  | _, _, _ => True

/-- The trees of which every operand is held by a float, with their exact values. A number that stands for itself may
have any digits, as long as it is no smaller than the floats. -/
inductive Exact : Tree → Rat → Prop
  | number {q : Rat} (h : q = 0 ∨ -1074 ≤ Int.log 2 q) : Exact (.number q) q
  | negate {t : Tree} {q : Rat} (h : Exact t q) : Exact (.negate t) (-q)
  | binary {t u : Tree} {p q : Rat} (o : Op) (ht : Exact t p) (hu : Exact u q) (hp : Representable p)
      (hq : Representable q) (h : o.Sound p q) : Exact (.binary o.operator t u) (o.exact p q)

/-- The denominator of a multiple of a power of two divides a power of two. -/
theorem den_mul_zpow_dvd (m : Int) {e : Int} {k : Nat} (h : -k ≤ e) : (m * 2 ^ e : Rat).den ∣ 2 ^ k := by
  obtain ⟨n, hn⟩ := Int.eq_ofNat_of_zero_le (show 0 ≤ e + k by omega)
  have hdiv : (m * 2 ^ e : Rat) = Rat.divInt (m * 2 ^ n) (2 ^ k) := by
    rw [Rat.divInt_eq_div, show e = n - k by omega, zpow_sub₀ two_ne_zero]
    push_cast
    rw [zpow_natCast, zpow_natCast, mul_div_assoc]
  have hint := Rat.den_dvd (m * 2 ^ n) (2 ^ k)
  rw [← hdiv] at hint
  exact_mod_cast hint

theorem abs_lt_of_log_lt {q : Rat} {k : Nat} (h : Int.log 2 |q| < k) : |q| < 2 ^ k := by
  rcases eq_or_ne q 0 with rfl | hne
  · simp
  · exact_mod_cast (Int.lt_zpow_iff_log_lt one_lt_two (abs_pos.2 hne)).2 h

theorem Representable.lt {q : Rat} (h : Representable q) : |q| < 2 ^ 1024 := by
  obtain ⟨-, -, -, -, hlog, -⟩ := h
  exact abs_lt_of_log_lt hlog

theorem bitLength_two_pow_le (k : Nat) : bitLength (2 ^ k) ≤ k + 1 :=
  bitLength_le_iff.2 (Nat.pow_lt_pow_succ one_lt_two)

/-- What a float holds is a small enough rational to be inverted. -/
theorem Representable.powerFits {q : Rat} (h : Representable q) : Expr.powerFits q (-1) = true := by
  have hden : bitLength q.den ≤ 1075 := by
    obtain ⟨m, e, -, he, -, hq⟩ := h
    have hdvd := den_mul_zpow_dvd m (k := 1074) he
    rw [← hq] at hdvd
    exact (bitLength_of_dvd (by positivity) hdvd).trans (bitLength_two_pow_le 1074)
  have hnum : bitLength q.num.natAbs ≤ 1024 + 1075 := by
    rw [bitLength_le_iff, pow_add]
    have hcast : (q.num.natAbs : Rat) = |q| * q.den := by
      rw [Nat.cast_natAbs, Int.cast_abs, ← Rat.mul_den_eq_num, abs_mul, Nat.abs_cast]
    have hlt : (q.den : Rat) < 2 ^ 1075 := by exact_mod_cast bitLength_le_iff.1 hden
    have hprod : (q.num.natAbs : Rat) < 2 ^ 1024 * 2 ^ 1075 := by
      rw [hcast]
      exact mul_lt_mul'' (Representable.lt h) hlt (abs_nonneg q) (Nat.cast_nonneg _)
    exact_mod_cast hprod
  refine Expr.powerFits_neg_one ?_
  have hmax : 1024 + 1075 + 1075 ≤ Expr.maxPowerBits := by decide
  unfold Rational.bits
  omega

/-- The exact path computes the exact value of an operation. -/
theorem Op.Sound.apply {o : Op} {p q : Rat} (h : o.Sound p q) (hq : Representable q) :
    o.operator.apply (.rat p) (.rat q) = .rat (o.exact p q) := by
  cases o with
  | add => exact Expr.rat_add_rat p q
  | sub => exact Expr.rat_sub_rat p q
  | mul => exact Expr.rat_mul_rat p q
  | div => exact Expr.rat_div_rat p h.1 (Representable.powerFits hq)
  | pow =>
    have hcast : (q.num : Rat) = q := Rat.coe_int_num_of_den_eq_one h.1
    have hpower := Expr.power_rat_int h.2.1 h.2.2.1
    rwa [hcast] at hpower

/-- A tree has its exact value on the exact path. -/
theorem Exact.value {t : Tree} {q : Rat} (h : Exact t q) : t.value = .rat q := by
  induction h with
  | number => rfl
  | @negate t q _ ih =>
    rw [Tree.value, ih]
    exact Expr.neg_rat q
  | binary o _ _ _ hq ho iht ihu => rw [Tree.value, iht, ihu, ho.apply hq]

theorem Exact.natCast {q : Rat} (n : Nat) (h : q = n) : Exact (.number q) q :=
  .number (.inr (by rw [h, Int.log_natCast]; omega))

open Decimal

end SymbolicSolver.Query.Arithmetic
