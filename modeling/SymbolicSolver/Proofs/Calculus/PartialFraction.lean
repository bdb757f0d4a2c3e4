import Mathlib.Algebra.Polynomial.AlgebraMap
import Mathlib.Algebra.Order.Antidiag.Nat
import SymbolicSolver.Proofs.Calculus.Antiderivative
import SymbolicSolver.Proofs.Calculus.Telescoping
import SymbolicSolver.Proofs.Polynomial.PartialFraction
import SymbolicSolver.Proofs.Polynomial.Terms

/-!
# Integrals of rational functions

The integral of each part of a fraction has the part for its change: a polynomial, a power of a linear factor, or a
logarithm; above a factor of degree two a logarithm with an arctangent or a second logarithm, for which the square root
of the discriminant stands for any number with the right square. So the derivative of the integral has the value of the
fraction wherever the fraction has one.
-/

namespace SymbolicSolver

open TrivSqZeroExt (inl inr)
open scoped DualNumber
open Polynomial (aeval)
open MvPolynomial (supported)

/-! ## Changes of dual numbers -/

section Dual

variable {K : Type*} [Field K]

theorem fst_inverse {b : K[ε]} (hb : b.fst ≠ 0) : (Ring.inverse b).fst = b.fst⁻¹ := by
  rw [← intPow_neg_one, fst_intPow (.inl hb), zpow_neg_one]

theorem snd_inverse {b : K[ε]} (hb : b.fst ≠ 0) : (Ring.inverse b).snd = -b.snd / b.fst ^ 2 := by
  have hexp : (-1 - 1 : ℤ) = -((2 : ℕ) : ℤ) := rfl
  rw [← intPow_neg_one, snd_intPow (.inl hb), hexp, zpow_neg, zpow_natCast]
  push_cast
  field_simp

theorem inverse_inl {c : K} (hc : c ≠ 0) : Ring.inverse (inl c : K[ε]) = inl c⁻¹ := by
  have hfst : (inl c : K[ε]).fst ≠ 0 := hc
  refine TrivSqZeroExt.ext (fst_inverse hfst) ?_
  rw [snd_inverse hfst]
  simp

theorem fst_mul_inverse (a : K[ε]) {b : K[ε]} (hb : b.fst ≠ 0) : (a * Ring.inverse b).fst = a.fst / b.fst := by
  rw [TrivSqZeroExt.fst_mul, fst_inverse hb, div_eq_mul_inv]

theorem snd_mul_inverse (a : K[ε]) {b : K[ε]} (hb : b.fst ≠ 0) :
    (a * Ring.inverse b).snd = (a.snd * b.fst - a.fst * b.snd) / b.fst ^ 2 := by
  rw [DualNumber.snd_mul, fst_inverse hb, snd_inverse hb]
  field_simp
  ring

variable [CharZero K]

theorem algebraMap_dual (q : ℚ) : algebraMap ℚ K[ε] q = inl (algebraMap ℚ K q) := rfl

/-- A polynomial changes by its derivative. -/
theorem aeval_dual (d : K[ε]) (p : Polynomial ℚ) :
    (aeval d p).fst = aeval d.fst p ∧ (aeval d p).snd = aeval d.fst (Polynomial.derivative p) * d.snd := by
  induction p using Polynomial.induction_on' with
  | add p q hp hq => simp [hp.1, hp.2, hq.1, hq.2, add_mul]
  | monomial n a =>
    rw [Polynomial.derivative_monomial, Polynomial.aeval_monomial, Polynomial.aeval_monomial, Polynomial.aeval_monomial,
      algebraMap_dual]
    refine ⟨by simp, ?_⟩
    rw [TrivSqZeroExt.snd_mul, TrivSqZeroExt.snd_pow]
    simp
    ring

end Dual

namespace Interpretation

open Expr

/-! ## Polynomials -/

section Polynomials

variable {A : Type*} [CommRing A] [Algebra ℚ A] [Nontrivial A] (I : Interpretation A) (name : String)

theorem hasValue_varPower (n : ℕ) : I.HasValue (power (var name) (int n)) (I.ofVar name ^ n) := by
  rcases Nat.eq_zero_or_pos n with rfl | hn
  · rw [int, Nat.cast_zero, Int.cast_zero, power_rat_zero (by simp), pow_zero]
    exact hasValue_one
  · have h := (hasValue_var (I := I) name).power (n := n) (.inr (.inl (by exact_mod_cast hn)))
    rwa [intPow_natCast] at h

theorem hasValue_polyTerms (n : ℕ) (cs : List ℚ) : (∀ t ∈ polyTerms name n cs, I.Defined t) ∧
    ((polyTerms name n cs).map I.eval).sum = I.ofVar name ^ n * aeval (I.ofVar name) (RatPoly.polyOf cs) := by
  induction cs generalizing n with
  | nil => simp [polyTerms]
  | cons c cs ih =>
    obtain ⟨hrest, hv⟩ := ih (n + 1)
    have hpow := hasValue_varPower I name n
    obtain ⟨hterm, hvterm⟩ := hasValue_product (I := I) [rat c, power (var name) (int n)] (by simpa using hpow.1)
    rw [polyTerms, RatPoly.polyOf_cons, map_add, map_mul, Polynomial.aeval_C, Polynomial.aeval_X]
    split
    · rename_i hc
      refine ⟨hrest, hv.trans ?_⟩
      rw [hc, map_zero]
      ring
    · refine ⟨List.forall_mem_cons.2 ⟨hterm, hrest⟩, ?_⟩
      rw [List.map_cons, List.sum_cons, hv, hvterm]
      simp [hpow.2]
      ring

/-- The expression of a polynomial has the value of the polynomial at the variable. -/
theorem hasValue_ofRatPoly (q : RatPoly) :
    I.HasValue (ofRatPoly q name) (aeval (I.ofVar name) q.toPoly) := by
  obtain ⟨hd, hv⟩ := hasValue_polyTerms I name 0 q.coeffs
  obtain ⟨hsum, hvsum⟩ := hasValue_sum _ hd
  exact ⟨hsum, hvsum.trans (by rw [hv, pow_zero, one_mul]; rfl)⟩

end Polynomials

/-! ## Parts -/

variable {K : Type*} [Field K] [CharZero K] {k : Interpretation K} {D : Interpretation K[ε]} {name : String}

theorem Tangent.ofVar_self (h : Tangent k D name) : D.ofVar name = inl (k.ofVar name) + DualNumber.eps := by
  rw [h.var, if_pos rfl]

theorem hasValue_const (q : ℚ) : D.HasValue (rat q) (inl (algebraMap ℚ K q)) := hasValue_rat q

/-- A quotient by a constant. -/
theorem HasChange.div_const {x y : Expr} {a c : K} (hx : D.HasChange x c) (hy : D.HasValue y (inl a)) (ha : a ≠ 0) :
    D.HasChange (x / y) (c / a) := by
  obtain ⟨u, hu, rfl⟩ := hx
  have hafst : (inl a : K[ε]).fst ≠ 0 := ha
  refine ⟨_, hu.div hy (isUnit_dual_iff.2 hafst), ?_⟩
  rw [snd_mul_inverse _ hafst]
  simp
  field_simp

theorem hasChange_ofRatPoly (h : Tangent k D name) (q : RatPoly) :
    D.HasChange (ofRatPoly q.integral name) (aeval (k.ofVar name) q.toPoly) := by
  refine ⟨_, hasValue_ofRatPoly D name q.integral, ?_⟩
  rw [h.ofVar_self, (aeval_dual _ _).2, RatPoly.derivative_integral]
  simp

variable {flat : Prop} {E : Interpretation K[ε]}

section Parts

variable (h : Tangent k D name) (hE : Calls flat D E)

include h

/-- The linear factor at a root changes as the variable does. -/
theorem hasValue_linear (r : ℚ) :
    D.HasValue (var name - rat r) (inl (k.ofVar name - algebraMap ℚ K r) + DualNumber.eps) := by
  have hsub := (hasValue_var (I := D) name).sub (hasValue_const (D := D) r)
  rw [h.ofVar_self] at hsub
  rw [TrivSqZeroExt.inl_sub]
  rwa [add_sub_right_comm] at hsub

/-- Of a part over a higher power the integral is a power. -/
theorem hasChange_powerPart (a : ℚ) {r : ℚ} {j : ℕ} (hr : k.ofVar name - algebraMap ℚ K r ≠ 0) (hj : j ≠ 1) :
    D.HasChange (rat a * power (var name - rat r) (int (1 - j)) / int (1 - j))
      (algebraMap ℚ K a / (k.ofVar name - algebraMap ℚ K r) ^ j) := by
  have hexp : ((1 - j : ℤ) : K) ≠ 0 := Int.cast_ne_zero.2 (by omega)
  have hfst : (inl (k.ofVar name - algebraMap ℚ K r) + DualNumber.eps : K[ε]).fst ≠ 0 := by simpa using hr
  have hpow : D.HasChange (power (var name - rat r) (int (1 - j)))
      ((1 - j : ℤ) * (k.ofVar name - algebraMap ℚ K r) ^ (-(j : ℤ))) := by
    refine ⟨_, (hasValue_linear h r).power (n := 1 - j) (.inl (isUnit_dual_iff.2 hfst)), ?_⟩
    rw [snd_intPow (.inl hfst), sub_sub_cancel_left]
    simp
  have hint : D.HasValue (int (1 - j)) (inl ((1 - j : ℤ) : K)) := hasValue_int _
  have hpart := (hpow.scale (hasValue_const a)).div_const hint hexp
  convert hpart using 1
  rw [zpow_neg, zpow_natCast]
  field_simp

/-- The integral of a part is a power without calls, or a logarithm behind a coefficient. -/
theorem callTerm_part {r a : ℚ} {j : ℕ} (hr : k.ofVar name - algebraMap ℚ K r ≠ 0) (ha : a ≠ 0) :
    CallTerm k D (integralOfPart name r (j, a)) := by
  have hbase := hasValue_linear h r
  rw [integralOfPart]
  split
  · have hcanonical : Canonical (var name - rat r) := by
      change Canonical (sum [var name, -rat r])
      rw [neg_rat]
      exact sum_canonical (by simpa using ⟨.var name, .rat _⟩)
    have hlog := apply_log hbase.1 (hbase.rat?_eq_none (by simp))
    have hmonomial : Monomial [fn .log (var name - rat r)] :=
      ⟨by simpa using .call hcanonical hlog, ⟨by simp [rat?], by simp [isProduct], by simp, List.pairwise_singleton _ _⟩,
        by simp⟩
    refine .inr ⟨a, _, ⟨.log, _, rfl, hbase.1, ?_⟩, ?_⟩
    · have hk := h.hasValue_fst hbase.1
      rw [hbase.2] at hk
      exact (hk.inverse (IsUnit.mk0 _ (by simpa using hr))).1
    · dsimp only
      rw [hlog]
      exact product_times a ha hmonomial
  · exact .inl (hasChange_powerPart h a hr ‹_›).defined

include hE

/-- The integral of a part has the part for its change. -/
theorem hasChange_part {r a : ℚ} {j : ℕ} (hr : k.ofVar name - algebraMap ℚ K r ≠ 0) :
    E.HasChange (integralOfPart name r (j, a))
      (algebraMap ℚ K a / (k.ofVar name - algebraMap ℚ K r) ^ j) := by
  have hbase := hasValue_linear h r
  rw [integralOfPart]
  split
  · rename_i hj
    dsimp only at hj ⊢
    subst hj
    have hlog := hE.log hbase (by simpa using hr) (hbase.rat?_eq_none (by simp)) (.inl (by simp))
    have hpart := hlog.scale (hasValue_const a)
    simpa [div_eq_mul_inv] using hpart
  · exact hE.hasChange (hasChange_powerPart h a hr ‹_›)

end Parts

/-! ## Quadratic denominators -/

/-- The square root of a rational does not change. -/
theorem hasValue_sqrt (hroots : D.HasRoots) {d : ℚ} (hd : d ≠ 0) :
    ∃ w : K, D.HasValue (sqrt (rat d)) (inl w) ∧ w * w = algebraMap ℚ K d ∧ w ≠ 0 := by
  obtain ⟨s, hs, hsq⟩ := hroots.sqrt hd
  have hfst : s.fst * s.fst = algebraMap ℚ K d := congrArg TrivSqZeroExt.fst hsq
  have hne : s.fst ≠ 0 := by
    intro h0
    rw [h0, mul_zero] at hfst
    exact hd ((map_eq_zero _).1 hfst.symm)
  have hsnd : s.fst * s.snd + s.snd * s.fst = 0 := by
    rw [← DualNumber.snd_mul, hsq, algebraMap_dual, TrivSqZeroExt.snd_inl]
  have hzero : s.snd = 0 := by
    have htwo : 2 * s.fst * s.snd = 0 := by linear_combination hsnd
    exact (mul_eq_zero.1 htwo).resolve_left (mul_ne_zero two_ne_zero hne)
  have heq : s = inl s.fst := TrivSqZeroExt.ext rfl hzero
  exact ⟨s.fst, heq ▸ hs, hfst, hne⟩

theorem HasValue.div_const {x y : Expr} {a b : K} (hx : D.HasValue x (inl a)) (hy : D.HasValue y (inl b)) (hb : b ≠ 0) :
    D.HasValue (x / y) (inl (a / b)) := by
  have hbfst : (inl b : K[ε]).fst ≠ 0 := hb
  have hdiv := hx.div hy (isUnit_dual_iff.2 hbfst)
  rwa [inverse_inl hb, ← TrivSqZeroExt.inl_mul, ← div_eq_mul_inv] at hdiv

/-- The quadratic polynomial `x² + p x + s`. -/
def trinomial (name : String) (p s : ℚ) : Expr := power (var name) (int 2) + rat p * var name + rat s

theorem hasValue_trinomial (D : Interpretation K[ε]) (name : String) (p s : ℚ) : D.HasValue (trinomial name p s)
    (D.ofVar name * D.ofVar name + inl (algebraMap ℚ K p) * D.ofVar name + inl (algebraMap ℚ K s)) :=
  ((hasValue_var name).square.add ((hasValue_const p).mul (hasValue_var name))).add (hasValue_const s)

/-- It changes where the variable is not `-p / 2`, so it is no rational. -/
theorem rat?_trinomial (name : String) (p s : ℚ) : (trinomial name p s).rat? = none := by
  refine (hasValue_trinomial (point (moved (fun _ => 1 - p / 2) name)) name p s).rat?_eq_none ?_
  simp [snd_moved]
  ring_nf
  norm_num

section Field

variable {b c p s x w : K}

omit [CharZero K] in
theorem one_add_square (hw : w * w = 4 * s - p * p) (hw0 : w ≠ 0) :
    1 + (2 * x + p) / w * ((2 * x + p) / w) = 4 * (x * x + p * x + s) / (w * w) := by
  field_simp
  linear_combination hw

/-- A logarithm and an arctangent have together the change of a fraction over a trinomial. -/
theorem arctangent_part (hw : w * w = 4 * s - p * p) (hw0 : w ≠ 0) :
    b / 2 * ((x + x + p) / (x * x + p * x + s)) + 2 * (c - b * p / 2) / w *
      (2 / w / (1 + (2 * x + p) / w * ((2 * x + p) / w))) = (b * x + c) / (x * x + p * x + s) := by
  rw [one_add_square hw hw0]
  field_simp
  ring

theorem factors_ne_zero (hw : w * w = -(4 * s - p * p)) (hT : x * x + p * x + s ≠ 0) :
    2 * x + p - w ≠ 0 ∧ 2 * x + p + w ≠ 0 := by
  have hprod : (2 * x + p - w) * (2 * x + p + w) = 4 * (x * x + p * x + s) := by linear_combination -hw
  have hne : (2 * x + p - w) * (2 * x + p + w) ≠ 0 := by
    rw [hprod]
    exact mul_ne_zero (OfNat.ofNat_ne_zero 4) hT
  exact ⟨left_ne_zero_of_mul hne, right_ne_zero_of_mul hne⟩

/-- Two logarithms have together the change of a fraction over a trinomial. -/
theorem logarithm_part (hw : w * w = -(4 * s - p * p)) (hw0 : w ≠ 0) (hT : x * x + p * x + s ≠ 0) :
    b / 2 * ((x + x + p) / (x * x + p * x + s)) + (c - b * p / 2) / w *
      ((2 * (2 * x + p + w) - (2 * x + p - w) * 2) / (2 * x + p + w) ^ 2 / ((2 * x + p - w) / (2 * x + p + w))) =
        (b * x + c) / (x * x + p * x + s) := by
  obtain ⟨hminus, hplus⟩ := factors_ne_zero hw hT
  have hlog : (2 * (2 * x + p + w) - (2 * x + p - w) * 2) / (2 * x + p + w) ^ 2 / ((2 * x + p - w) / (2 * x + p + w)) =
      w / (x * x + p * x + s) := by
    rw [div_div_div_eq, div_eq_div_iff (mul_ne_zero (pow_ne_zero 2 hplus) hminus) hT]
    linear_combination (w * (2 * x + p + w)) * hw
  rw [hlog]
  field_simp
  ring

end Field

theorem hasValue_two : D.HasValue (int 2) (inl (2 : K)) := by
  have h := hasValue_int (I := D) 2
  exact_mod_cast h

/-- The remaining numerator, a constant. -/
theorem hasValue_kappa (b c p : ℚ) : D.HasValue (rat c - rat b * rat p / int 2)
    (inl (algebraMap ℚ K c - algebraMap ℚ K b * algebraMap ℚ K p / 2)) := by
  have hprod := (hasValue_const (D := D) b).mul (hasValue_const p)
  rw [← TrivSqZeroExt.inl_mul] at hprod
  rw [TrivSqZeroExt.inl_sub]
  exact (hasValue_const c).sub (hprod.div_const hasValue_two two_ne_zero)

section Quadratic

variable (h : Tangent k D name) (hE : Calls flat D E) {b c p s : ℚ} {x w : K} {W : Expr}

include h

/-- The derivative of the trinomial. -/
theorem hasValue_slope (hx : k.ofVar name = x) :
    D.HasValue (int 2 * var name + rat p) (inl (2 * x + algebraMap ℚ K p) + inr 2) := by
  have hlin := (hasValue_two.mul (hasValue_var (I := D) name)).add (hasValue_const p)
  convert hlin using 1
  rw [h.ofVar_self, hx]
  ext <;> simp

include hE

theorem hasChange_logPart (hx : k.ofVar name = x) (hT : x * x + algebraMap ℚ K p * x + algebraMap ℚ K s ≠ 0)
    (hflat : x + x + algebraMap ℚ K p ≠ 0 ∨ flat) :
    E.HasChange (rat b / int 2 * apply .log (trinomial name p s))
      (algebraMap ℚ K b / 2 *
        ((x + x + algebraMap ℚ K p) / (x * x + algebraMap ℚ K p * x + algebraMap ℚ K s))) := by
  have htri := hasValue_trinomial D name p s
  rw [h.ofVar_self, hx] at htri
  have hlog := hE.log htri (by simpa using hT) (rat?_trinomial name p s) (hflat.imp_left fun hne => by simpa using hne)
  convert hlog.scale ((hasValue_const b).div_const hasValue_two two_ne_zero) using 1
  simp

theorem hasChange_arctangent (hx : k.ofVar name = x) (hW : D.HasValue W (inl w)) (hw0 : w ≠ 0)
    (hne : 1 + (2 * x + algebraMap ℚ K p) / w * ((2 * x + algebraMap ℚ K p) / w) ≠ 0) :
    E.HasChange
      (int 2 * (rat c - rat b * rat p / int 2) / W * apply .atan ((int 2 * var name + rat p) / W))
      (2 * (algebraMap ℚ K c - algebraMap ℚ K b * algebraMap ℚ K p / 2) / w *
        (2 / w / (1 + (2 * x + algebraMap ℚ K p) / w * ((2 * x + algebraMap ℚ K p) / w)))) := by
  have hwfst : (inl w : K[ε]).fst ≠ 0 := hw0
  have harg := (hasValue_slope h (p := p) hx).div hW (isUnit_dual_iff.2 hwfst)
  have hfst := fst_mul_inverse (inl (2 * x + algebraMap ℚ K p) + inr 2) hwfst
  have hsnd := snd_mul_inverse (inl (2 * x + algebraMap ℚ K p) + inr 2) hwfst
  simp only [TrivSqZeroExt.fst_add, TrivSqZeroExt.snd_add, TrivSqZeroExt.fst_inl, TrivSqZeroExt.snd_inl,
    TrivSqZeroExt.fst_inr, TrivSqZeroExt.snd_inr, add_zero, zero_add, mul_zero, sub_zero, sq,
    mul_div_mul_right _ _ hw0] at hfst hsnd
  have hatan := hE.atan harg (by rwa [hfst]) (by rw [hsnd]; exact div_ne_zero two_ne_zero hw0)
  rw [hfst, hsnd] at hatan
  have hprod := hasValue_two.mul (hasValue_kappa (D := E) b c p)
  rw [← TrivSqZeroExt.inl_mul] at hprod
  exact hatan.scale (hprod.div_const (hE.keeps _ _ hW) hw0)

theorem hasChange_logQuotient (hx : k.ofVar name = x) (hW : D.HasValue W (inl w)) (hw0 : w ≠ 0)
    (hplus : 2 * x + algebraMap ℚ K p + w ≠ 0) (hminus : 2 * x + algebraMap ℚ K p - w ≠ 0) :
    E.HasChange
      ((rat c - rat b * rat p / int 2) / W *
        apply .log ((int 2 * var name + rat p - W) / (int 2 * var name + rat p + W)))
      ((algebraMap ℚ K c - algebraMap ℚ K b * algebraMap ℚ K p / 2) / w *
        ((2 * (2 * x + algebraMap ℚ K p + w) - (2 * x + algebraMap ℚ K p - w) * 2) / (2 * x + algebraMap ℚ K p + w) ^ 2 /
          ((2 * x + algebraMap ℚ K p - w) / (2 * x + algebraMap ℚ K p + w)))) := by
  have hslope := hasValue_slope h (p := p) hx
  have hpfst : (inl (2 * x + algebraMap ℚ K p) + inr 2 + inl w : K[ε]).fst ≠ 0 := by simpa using hplus
  have harg := (hslope.sub hW).div (hslope.add hW) (isUnit_dual_iff.2 hpfst)
  have hfst := fst_mul_inverse (inl (2 * x + algebraMap ℚ K p) + inr 2 - inl w) hpfst
  have hsnd := snd_mul_inverse (inl (2 * x + algebraMap ℚ K p) + inr 2 - inl w) hpfst
  simp only [TrivSqZeroExt.fst_add, TrivSqZeroExt.snd_add, TrivSqZeroExt.fst_sub, TrivSqZeroExt.snd_sub,
    TrivSqZeroExt.fst_inl, TrivSqZeroExt.snd_inl, TrivSqZeroExt.fst_inr, TrivSqZeroExt.snd_inr, add_zero, zero_add,
    sub_zero] at hfst hsnd
  have hchange : ((inl (2 * x + algebraMap ℚ K p) + inr 2 - inl w) *
      Ring.inverse (inl (2 * x + algebraMap ℚ K p) + inr 2 + inl w) : K[ε]).snd ≠ 0 := by
    rw [hsnd]
    refine div_ne_zero ?_ (pow_ne_zero 2 hplus)
    have hfour : 2 * (2 * x + algebraMap ℚ K p + w) - (2 * x + algebraMap ℚ K p - w) * 2 = 4 * w := by ring
    rw [hfour]
    exact mul_ne_zero (OfNat.ofNat_ne_zero 4) hw0
  have hlog := hE.log harg (by rw [hfst]; exact div_ne_zero hminus hplus) (harg.rat?_eq_none hchange) (.inl hchange)
  rw [hfst, hsnd] at hlog
  exact hlog.scale ((hasValue_kappa b c p).div_const (hE.keeps _ _ hW) hw0)

/-- The integral above a trinomial has the fraction for its change. -/
theorem hasChange_quadratic (hroots : D.HasRoots) {q : RatPoly} {F : Expr}
    (hF : integralOfQuadratic? name b c q = some F) (hx : k.ofVar name = x)
    (hT : x * x + algebraMap ℚ K (q.coeff 1) * x + algebraMap ℚ K (q.coeff 0) ≠ 0)
    (hflat : x + x + algebraMap ℚ K (q.coeff 1) ≠ 0 ∨ flat) :
    E.HasChange F ((algebraMap ℚ K b * x + algebraMap ℚ K c) /
      (x * x + algebraMap ℚ K (q.coeff 1) * x + algebraMap ℚ K (q.coeff 0))) := by
  have hdelta : int 4 * rat (q.coeff 0) - rat (q.coeff 1) * rat (q.coeff 1) =
      rat (4 * q.coeff 0 - q.coeff 1 * q.coeff 1) := by
    rw [int, rat_mul_rat, rat_mul_rat, rat_sub_rat]
    norm_num
  have hlogPart := hasChange_logPart h hE (b := b) hx hT hflat
  have hzero : (rat 0).constantSign? = some 0 := by decide +kernel
  unfold integralOfQuadratic? at hF
  simp only [hdelta, neg_rat] at hF
  split at hF
  · rename_i hsign
    obtain rfl := Option.some.inj hF
    have hd : 4 * q.coeff 0 - q.coeff 1 * q.coeff 1 ≠ 0 := by
      intro h0
      rw [h0, hzero] at hsign
      cases hsign
    obtain ⟨w, hW, hw, hw0⟩ := hasValue_sqrt hroots hd
    have hw' : w * w = 4 * algebraMap ℚ K (q.coeff 0) - algebraMap ℚ K (q.coeff 1) * algebraMap ℚ K (q.coeff 1) := by
      simpa using hw
    have hne : 1 + (2 * x + algebraMap ℚ K (q.coeff 1)) / w * ((2 * x + algebraMap ℚ K (q.coeff 1)) / w) ≠ 0 := by
      rw [one_add_square hw' hw0]
      exact div_ne_zero (mul_ne_zero (OfNat.ofNat_ne_zero 4) hT) (mul_ne_zero hw0 hw0)
    rw [← arctangent_part hw' hw0]
    exact hlogPart.add (hasChange_arctangent h hE hx hW hw0 hne)
  · rename_i hsign
    obtain rfl := Option.some.inj hF
    have hd : -(4 * q.coeff 0 - q.coeff 1 * q.coeff 1) ≠ 0 := by
      intro h0
      rw [neg_eq_zero.1 h0, hzero] at hsign
      cases hsign
    obtain ⟨w, hW, hw, hw0⟩ := hasValue_sqrt hroots hd
    have hw' : w * w =
        -(4 * algebraMap ℚ K (q.coeff 0) - algebraMap ℚ K (q.coeff 1) * algebraMap ℚ K (q.coeff 1)) := by
      simpa using hw
    obtain ⟨hminus, hplus⟩ := factors_ne_zero hw' hT
    rw [← logarithm_part hw' hw0 hT]
    exact hlogPart.add (hasChange_logQuotient h hE hx hW hw0 hplus hminus)
  · cases hF

end Quadratic

/-! ## Rational functions -/

section Fractions

variable (h : Tangent k D name) (hE : Calls flat D E) {x₀ : ℚ} (hx : k.ofVar name = algebraMap ℚ K x₀)

include h hE hx

theorem hasChange_parts {parts : List (ℚ × ℕ × ℚ)} (hparts : ∀ a ∈ parts, x₀ ≠ a.1) :
    List.Forall₂ E.HasChange (parts.map fun a => integralOfPart name a.1 a.2)
      (parts.map fun a => algebraMap ℚ K (a.2.2 / (x₀ - a.1) ^ a.2.1)) := by
  rw [List.forall₂_map_left_iff, List.forall₂_map_right_iff, List.forall₂_same]
  rintro ⟨r, j, a⟩ ha
  have hfst : k.ofVar name - algebraMap ℚ K r ≠ 0 := by
    rw [hx, ← map_sub]
    exact (map_ne_zero _).2 (sub_ne_zero.2 (hparts _ ha))
  have hpart := hasChange_part h hE (a := a) (j := j) hfst
  rw [hx] at hpart
  simpa using hpart

end Fractions

/-- The powers of linear factors of a denominator, and what is left. -/
def splitOf (d : RatPoly) : List (ℚ × ℕ) × RatPoly := RatPoly.splitRoots d.monic.rationalRoots d.monic

/-- The parts of a proper fraction. -/
def properParts (r d : RatPoly) : List (ℚ × ℕ × ℚ) := RatPoly.partsOf (r.scale d.lead⁻¹) d.monic (splitOf d).1

/-- The numerator over what is left. -/
def restNumerator (r d : RatPoly) : RatPoly :=
  (((r.scale d.lead⁻¹).sub (RatPoly.removedBy d.monic (properParts r d))).divMod (d.monic.divMod (splitOf d).2).1).1

theorem integralOfProper?_eq (r d : RatPoly) (name : String) : integralOfProper? r d name =
    match (splitOf d).2.degree? with
    | some 0 => some (sum ((properParts r d).map fun a => integralOfPart name a.1 a.2))
    | some 2 =>
      (integralOfQuadratic? name ((restNumerator r d).coeff 1) ((restNumerator r d).coeff 0) (splitOf d).2).map
        fun last => sum ((properParts r d).map (fun a => integralOfPart name a.1 a.2) ++ [last])
    | _ => none := rfl

theorem split_splitOf {d : RatPoly} (hd : d.isZero = false) : RatPoly.Split d.monic (splitOf d).1 (splitOf d).2 :=
  RatPoly.split_splitRoots (RatPoly.isZero_monic hd) d.monic.rationalRoots_nodup

section Proper

variable {r d : RatPoly} (hd : d.isZero = false) (hdeg : r.toPoly.degree < d.toPoly.degree)

include hd

theorem eval_div_monic (x : ℚ) : r.toPoly.eval x / d.toPoly.eval x =
    (r.scale d.lead⁻¹).toPoly.eval x / d.monic.toPoly.eval x := by
  rw [RatPoly.toPoly_scale, RatPoly.toPoly_monic, Polynomial.eval_mul, Polynomial.eval_mul, Polynomial.eval_C,
    mul_div_mul_left _ _ (inv_ne_zero (RatPoly.getLast?_coeffs hd).2)]

theorem eval_monic_ne_zero {x : ℚ} (hne : d.toPoly.eval x ≠ 0) : d.monic.toPoly.eval x ≠ 0 := by
  rw [RatPoly.toPoly_monic, Polynomial.eval_mul, Polynomial.eval_C]
  exact mul_ne_zero (inv_ne_zero (RatPoly.getLast?_coeffs hd).2) hne

theorem ne_of_mem_properParts {x : ℚ} (hne : d.toPoly.eval x ≠ 0) : ∀ a ∈ properParts r d, x ≠ a.1 := by
  intro a ha heq
  exact eval_monic_ne_zero hd hne (heq ▸ ((split_splitOf hd).root_of_mem_partsOf ha).1)

include hdeg

theorem degree_scale_lt : (r.scale d.lead⁻¹).toPoly.degree < d.monic.toPoly.degree := by
  rwa [RatPoly.toPoly_scale, RatPoly.degree_monic hd,
    Polynomial.degree_C_mul (inv_ne_zero (RatPoly.getLast?_coeffs hd).2)]

variable (h : Tangent k D name) (hE : Calls flat D E) {x₀ : ℚ} (hx : k.ofVar name = algebraMap ℚ K x₀)
  (hne : d.toPoly.eval x₀ ≠ 0) {F : Expr} (hF : integralOfProper? r d name = some F)

include h hE hx hne hF

/-- The integral of a proper fraction has the fraction for its change. -/
theorem hasChange_proper (hroots : (splitOf d).2.degree? = some 0 ∨ D.HasRoots)
    (hflat : 2 * x₀ + (splitOf d).2.coeff 1 ≠ 0 ∨ flat) :
    E.HasChange F (algebraMap ℚ K (r.toPoly.eval x₀ / d.toPoly.eval x₀)) := by
  have hsplit := split_splitOf hd
  have hdeg' := degree_scale_lt hd hdeg
  have hne' := eval_monic_ne_zero hd hne
  have hparts := hasChange_parts h hE hx (ne_of_mem_properParts (r := r) hd hne)
  have hcast (l : List (ℚ × ℕ × ℚ)) : (l.map fun a => algebraMap ℚ K (a.2.2 / (x₀ - a.1) ^ a.2.1)).sum =
      algebraMap ℚ K (l.map fun a => a.2.2 / (x₀ - a.1) ^ a.2.1).sum := by
    rw [map_list_sum, List.map_map]
    rfl
  rw [integralOfProper?_eq] at hF
  rw [eval_div_monic hd]
  split at hF
  · rename_i hq
    obtain rfl := Option.some.inj hF
    rw [hsplit.eval_parts (RatPoly.isZero_monic hd) hdeg' hq hne', ← hcast]
    exact .sum hparts
  · rename_i hq
    obtain ⟨last, hlast, rfl⟩ := Option.map_eq_some_iff.1 hF
    obtain ⟨hudeg, heval⟩ := hsplit.eval_rest (RatPoly.isZero_monic hd) hdeg' (u := restNumerator r d) rfl
    rw [RatPoly.degree_eq hq] at hudeg
    have hlead : (splitOf d).2.lead = 1 := by
      rw [← RatPoly.lead_monic hd]
      exact (RatPoly.splitRoots_spec _ (RatPoly.isZero_monic hd)).2.2.1
    have hquad := RatPoly.eval_quadratic_of_lead hq hlead x₀
    have hT := (hsplit.eval_prod_ne_zero hne').2
    have hchange := hasChange_quadratic h hE
      (hroots.resolve_left fun h0 => by rw [h0] at hq; cases hq) hlast hx
      (by
        rw [← map_mul, ← map_mul, ← map_add, ← map_add, ← hquad]
        exact (map_ne_zero _).2 hT)
      (hflat.imp_left fun hne => by
        rw [← map_add, ← map_add, ← two_mul]
        exact (map_ne_zero _).2 hne)
    rw [← map_mul, ← map_mul, ← map_mul, ← map_add, ← map_add, ← map_add, ← map_div₀] at hchange
    rw [heval x₀ hne', RatPoly.eval_linear_of_degree hudeg, hquad, map_add, ← hcast]
    have hsum := HasChange.sum (List.rel_append hparts (.cons hchange .nil))
    rw [List.sum_append, List.sum_singleton] at hsum
    exact hsum
  · cases hF

end Proper

section Rational

variable {x F : Expr} {n d : RatPoly} {ρ : String → ℚ}

/-- What a rational function integrates to. -/
theorem integralOfRational?_cases (hF : integralOfRational? x name = some F) : ∃ n d, x.toFraction.num.ratPoly? name = some n ∧
    x.toFraction.den.ratPoly? name = some d ∧ d.isZero = false ∧
      ((n.divMod d).2.isZero = true ∧ F = sum [ofRatPoly (n.divMod d).1.integral name] ∨
        ∃ proper, integralOfProper? (n.divMod d).2 d name = some proper ∧
          F = sum [ofRatPoly (n.divMod d).1.integral name, proper]) := by
  unfold integralOfRational? at hF
  dsimp only at hF
  split at hF
  · rename_i n d hn hd
    rw [Option.ite_none_left_eq_some] at hF
    obtain ⟨hzero, hF⟩ := hF
    refine ⟨n, d, hn, hd, Bool.eq_false_of_not_eq_true hzero, ?_⟩
    split at hF
    · exact .inl ⟨‹_›, (Option.some.inj hF).symm⟩
    · obtain ⟨proper, hproper, rfl⟩ := Option.map_eq_some_iff.1 hF
      exact .inr ⟨proper, hproper, rfl⟩
  · cases hF

/-- Wherever the expression has a value it is that of the quotient of the polynomials. -/
theorem valueAt_eq_div (hx : DefinedAt ρ x) (hn : x.toFraction.num.ratPoly? name = some n)
    (hd : x.toFraction.den.ratPoly? name = some d) :
    d.toPoly.eval (ρ name) ≠ 0 ∧ valueAt ρ x = n.toPoly.eval (ρ name) / d.toPoly.eval (ρ name) := by
  have hfrac := toFraction_hasValue x hx
  have hnum := (plain_of_definedAt _ hfrac.num_defined (varsIn_true _)).ratPoly?_value hfrac.num_defined hn
  have hden := (plain_of_definedAt _ hfrac.den_defined (varsIn_true _)).ratPoly?_value hfrac.den_defined hd
  rw [RatPoly.eval_eq] at hnum hden
  have hne : d.toPoly.eval (ρ name) ≠ 0 := hden ▸ hfrac.den_ne_zero
  refine ⟨hne, ?_⟩
  rw [eq_div_iff hne, hnum, hden]
  exact hfrac.num_eq.symm

variable (h : Tangent k D name)

include h

/-- The integral of a rational function has the function for its change. -/
theorem hasChange_rational (hE : Calls flat D E) (hF : integralOfRational? x name = some F) (hx : DefinedAt ρ x)
    (hk₀ : k.ofVar name = algebraMap ℚ K (ρ name))
    (hroots : D.HasRoots ∨ ∀ d, x.toFraction.den.ratPoly? name = some d → (splitOf d).2.degree? = some 0)
    (hflat : (∀ d, x.toFraction.den.ratPoly? name = some d → 2 * ρ name + (splitOf d).2.coeff 1 ≠ 0) ∨ flat) :
    E.HasChange F (algebraMap ℚ K (valueAt ρ x)) := by
  obtain ⟨n, d, hn, hd, hzero, hcases⟩ := integralOfRational?_cases hF
  obtain ⟨hne, hvalue⟩ := valueAt_eq_div hx hn hd
  obtain ⟨hdiv, hdeg⟩ := RatPoly.divMod_spec n hzero
  have hsplit : valueAt ρ x = (n.divMod d).1.toPoly.eval (ρ name) +
      (n.divMod d).2.toPoly.eval (ρ name) / d.toPoly.eval (ρ name) := by
    rw [hvalue, hdiv, Polynomial.eval_add, Polynomial.eval_mul, add_div, mul_div_cancel_right₀ _ hne]
  have hwhole := hE.hasChange (hasChange_ofRatPoly h (n.divMod d).1)
  rw [hk₀, Polynomial.aeval_algebraMap_apply_eq_algebraMap_eval] at hwhole
  rw [hsplit, map_add]
  obtain ⟨hrest, rfl⟩ | ⟨proper, hproper, rfl⟩ := hcases
  · have hsum := HasChange.sum (.cons hwhole .nil)
    rw [RatPoly.toPoly_eq_zero hrest]
    simpa using hsum
  · have hchange := hasChange_proper hzero hdeg h hE hk₀ hne hproper (hroots.symm.imp_left fun hall => hall d hd)
      (hflat.imp_left fun hall => hall d hd)
    have hsum := HasChange.sum (.cons hwhole (.cons hchange .nil))
    simpa using hsum

/-- With nothing left beside the linear factors the integral is a sum of powers and logarithms. -/
theorem callSum_rational (hk : k.CallFree) (hD : D.CallFree) (hF : integralOfRational? x name = some F) (hx : DefinedAt ρ x)
    (hk₀ : k.ofVar name = algebraMap ℚ K (ρ name))
    (hd : ∀ d, x.toFraction.den.ratPoly? name = some d → (splitOf d).2.degree? = some 0) : CallSum k D F := by
  obtain ⟨n, d, hn, hden, hzero, hcases⟩ := integralOfRational?_cases hF
  obtain ⟨hne, -⟩ := valueAt_eq_div hx hn hden
  have hwhole : CallSum k D (ofRatPoly (n.divMod d).1.integral name) :=
    CallTerm.callSum (.inl (hasChange_ofRatPoly h (n.divMod d).1).defined)
  obtain ⟨-, rfl⟩ | ⟨proper, hproper, rfl⟩ := hcases
  · exact callSum_sum hk hD (by simpa using hwhole)
  · refine callSum_sum hk hD (List.forall_mem_cons.2 ⟨hwhole, ?_⟩)
    rw [integralOfProper?_eq, hd d hden] at hproper
    obtain rfl := Option.some.inj hproper
    rw [List.forall_mem_singleton]
    refine callSum_sum hk hD fun y hy => ?_
    obtain ⟨⟨r, j, a⟩, ha, rfl⟩ := List.mem_map.1 hy
    refine (callTerm_part h ?_ ((split_splitOf hzero).root_of_mem_partsOf ha).2).callSum
    rw [hk₀, ← map_sub]
    exact (map_ne_zero _).2 (sub_ne_zero.2 (ne_of_mem_properParts hzero hne _ ha))

end Rational

/-- If all linear factors of a denominator have roots that are found then nothing is left beside them. -/
theorem degree?_splitOf {d : RatPoly} (hd : d.isZero = false) {c : ℚ} {rs : List ℚ}
    (hrs : d.toPoly = .C c * (rs.map fun r => .X - .C r).prod) (hmem : ∀ r ∈ rs, r ∈ d.monic.rationalRoots) :
    (splitOf d).2.degree? = some 0 := by
  have hroots : (splitOf d).1.map Prod.fst = d.monic.rationalRoots :=
    (RatPoly.splitRoots_spec _ (RatPoly.isZero_monic hd)).1
  have hfactors : d.monic.toPoly = .C (d.lead⁻¹ * c) * (rs.map fun r => .X - .C r).prod := by
    rw [RatPoly.toPoly_monic, hrs, Polynomial.C_mul, mul_assoc]
  exact (split_splitOf hd).degree?_rest (RatPoly.isZero_monic hd) hfactors (hroots ▸ hmem)

/-- With nothing left beside the linear factors there is an integral. -/
theorem integralOfRational?_isSome {x : Expr} {n d : RatPoly} (hn : x.toFraction.num.ratPoly? name = some n)
    (hd : x.toFraction.den.ratPoly? name = some d) (hzero : d.isZero = false)
    (hsplit : (splitOf d).2.degree? = some 0) : ∃ F, integralOfRational? x name = some F := by
  unfold integralOfRational?
  simp only [hn, hd, hzero, Bool.false_eq_true, if_false, integralOfProper?_eq, hsplit, Option.map_some]
  split
  · exact ⟨_, rfl⟩
  · exact ⟨_, rfl⟩

/-! ## Exactness -/

/-- The integral of a rational function is an antiderivative of it. -/
theorem antiderivative_of_integralOfRational? {x F : Expr} {name : String} (hF : integralOfRational? x name = some F) :
    Antiderivative name x F := by
  obtain ⟨n, d, -, hd, -⟩ := integralOfRational?_cases hF
  -- A logarithm of a trinomial does not change at the vertex of the parabola.
  let c := (splitOf d).2.coeff 1
  have heval (ρ : String → ℚ) : MvPolynomial.aeval ρ (2 * .X name + .C c : MvPolynomial String ℚ) = 2 * ρ name + c := by simp
  refine ⟨2 * .X name + .C c, ?_, ne_zero_of_aeval (σ := fun _ => (1 - c) / 2) ?_,
    fun K _ _ k D ρ h hk hρ hx => ?_⟩
  · have hX : (.X name : MvPolynomial String ℚ) ∈ supported ℚ {s | s = name ∨ x.hasVar s} :=
      MvPolynomial.X_mem_supported.2 (.inl rfl)
    exact add_mem (mul_mem (ofNat_mem _ 2) hX) ((supported ℚ _).algebraMap_mem c)
  · rw [heval, mul_div_cancel₀ _ two_ne_zero, sub_add_cancel]
    exact one_ne_zero
  · refine hasChange_rational h.toTangent.withoutCalls h.calls hF hx (hk name) (.inl ⟨h.roots.root, h.roots.unit⟩)
      (.inl fun d' hd' => ?_)
    obtain rfl := Option.some.inj (hd.symm.trans hd')
    exact heval ρ ▸ hρ

/-- The derivative of the integral of a rational function has the value of the function wherever the function has one.
Square roots and the imaginary unit stand for any numbers with the right squares, and the calls for anything. If the
denominator splits into linear factors whose roots are found then there is an integral, and its derivative is a rational
expression with that value. -/
theorem integralOfRational?_exact {x : Expr} {name : String} {n d : RatPoly}
    (hn : x.toFraction.num.ratPoly? name = some n) (hd : x.toFraction.den.ratPoly? name = some d)
    (hzero : d.isZero = false) :
    (∀ F, integralOfRational? x name = some F → ∀ (K : Type) [Field K] [CharZero K] (R : Surds K) (ℓ : Func → K → K)
      (ρ : String → ℚ), DefinedAt ρ x →
        ((surdPoint R fun s => algebraMap ℚ K (ρ s)).withCalls ℓ).HasValue (derivative name F)
          (algebraMap ℚ K (valueAt ρ x))) ∧
      ∀ (c : ℚ) (rs : List ℚ), d.toPoly = .C c * (rs.map fun r => .X - .C r).prod →
        (∀ r ∈ rs, r ∈ d.monic.rationalRoots) → ∃ F, integralOfRational? x name = some F ∧
          ∀ ρ : String → ℚ, DefinedAt ρ x →
            DefinedAt ρ (derivative name F) ∧ valueAt ρ (derivative name F) = valueAt ρ x := by
  constructor
  · intro F hF K _ _ R ℓ ρ hx
    have h := tangent_surdPoint R (fun s => algebraMap ℚ K (ρ s)) name
    have hD : (surdPoint R.dual (moved (fun s => algebraMap ℚ K (ρ s)) name)).CallFree := fun _ _ => rfl
    exact (h.withCalls hD ℓ).hasValue_of_hasChange
      (hasChange_rational h (h.calls_withChanges (fun _ _ => rfl) hD ℓ) hF hx rfl (.inl (hasRoots_surdPoint _ _))
        (.inr trivial))
  · intro c rs hrs hmem
    have hdeg := degree?_splitOf hzero hrs hmem
    have hall : ∀ d', x.toFraction.den.ratPoly? name = some d' → (splitOf d').2.degree? = some 0 := by
      intro d' hd'
      obtain rfl := Option.some.inj (hd.symm.trans hd')
      exact hdeg
    obtain ⟨F, hF⟩ := integralOfRational?_isSome hn hd hzero hdeg
    refine ⟨F, hF, fun ρ hx => ?_⟩
    have h := tangent_point ρ name
    have hk : (point ρ).CallFree := fun _ _ => rfl
    have hD : (point (moved ρ name)).CallFree := fun _ _ => rfl
    have hvalue : ((point ρ).withCalls fun _ => id).HasValue (derivative name F) (valueAt ρ x) :=
      (h.withCalls hD _).hasValue_of_hasChange (hasChange_rational h (h.calls_withChanges hk hD _) hF hx rfl (.inr hall)
        (.inr trivial))
    -- The derivative of a logarithm holds no call, so the reading of calls does not matter.
    have hdefined : (point ρ).Defined (derivative name F) :=
      h.defined_derivative (callSum_rational h hk hD hF hx rfl hall)
    have hfree := hk.withCalls (fun _ => id) hdefined.hasValue
    obtain ⟨hdef, heq⟩ := hdefined.definedAt
    exact ⟨hdef, heq.trans (hfree.2.symm.trans hvalue.2)⟩

/-- The quotient `1 / (x² - 1)`. -/
def poleExample : Expr := pow (add [pow (var "x") (rat (2 : ℤ)), rat (-1)]) (rat (-1 : ℤ))

/-- The derivative of its integral has the value of the quotient at two. -/
theorem integralOfRational?_exact_pole : ∃ F, integralOfRational? poleExample "x" = some F ∧
    valueAt (fun _ => 2) (derivative "x" F) = 1 / 3 := by
  have hnum : poleExample.toFraction.num.ratPoly? "x" = some ⟨[1], by decide⟩ := by cbv
  have hden : poleExample.toFraction.den.ratPoly? "x" = some ⟨[-1, 0, 1], by decide⟩ := by cbv
  have hroots : (⟨[-1, 0, 1], by decide⟩ : RatPoly).monic.rationalRoots = [-1, 1] := by cbv
  have hzero : (⟨[-1, 0, 1], by decide⟩ : RatPoly).isZero = false := by decide
  have hsplit : (⟨[-1, 0, 1], by decide⟩ : RatPoly).toPoly =
      .C 1 * (([-1, 1] : List ℚ).map fun r => .X - .C r).prod := by
    simp [RatPoly.toPoly, RatPoly.polyOf_cons]
    ring
  obtain ⟨F, hF, hvalue⟩ := (integralOfRational?_exact hnum hden hzero).2 1 [-1, 1] hsplit (by simp [hroots])
  have hbase : (point fun _ => (2 : ℚ)).HasValue (add [pow (var "x") (rat (2 : ℤ)), rat (-1)]) 3 := by
    refine ⟨?_, ?_⟩
    · simp only [defined_add, List.forall_mem_cons, defined_pow_int]
      exact ⟨⟨defined_var _, .inr (.inl (by decide))⟩, defined_rat _, by simp⟩
    · simp only [eval_add, List.map_cons, List.map_nil, eval_pow_int, eval_var, ofVar_point, eval_rat, intPow_eq_zpow]
      norm_num
  have hd : (point fun _ => (2 : ℚ)).Defined poleExample :=
    (defined_pow_int _ _).2 ⟨hbase.1, .inl (hbase.2 ▸ IsUnit.mk0 _ (by norm_num))⟩
  obtain ⟨hdef, hv⟩ := hd.definedAt
  refine ⟨F, hF, (hvalue _ hdef).2.trans (hv.trans ?_)⟩
  rw [poleExample, eval_pow_int, hbase.2, intPow_eq_zpow]
  norm_num
end Interpretation

end SymbolicSolver
