import Mathlib.Algebra.BigOperators.Group.Finset.Defs
import Mathlib.Algebra.CharZero.Infinite
import Mathlib.Algebra.Polynomial.Taylor
import Mathlib.RingTheory.Coprime.Lemmas
import SymbolicSolver.Calculus.PartialFraction
import SymbolicSolver.Proofs.Polynomial.ClosedForm

/-!
# Partial fractions

The first coefficients of the power series of a quotient leave a multiple of a power of the variable. So what is
subtracted from a numerator for a root of its denominator leaves a multiple of the power of the linear factor, and
after all roots a multiple of their product: with no other factor nothing is left, and with one of degree two a proper
fraction above it.
-/

namespace SymbolicSolver.RatPoly

open Polynomial

/-! ## Operations -/

theorem polyOf_addList (xs ys : List Rat) : polyOf (addList xs ys) = polyOf xs + polyOf ys := by
  fun_induction addList xs ys with
  | case1 => simp
  | case2 => simp
  | case3 x xs y ys ih =>
    rw [polyOf_cons, polyOf_cons, polyOf_cons, ih, C_add]
    ring

theorem toPoly_add (p q : RatPoly) : (p.add q).toPoly = p.toPoly + q.toPoly := by
  rw [add, toPoly_ofList, polyOf_addList, toPoly, toPoly]

theorem toPoly_sub (p q : RatPoly) : (p.sub q).toPoly = p.toPoly - q.toPoly := by
  have hneg : q.coeffs.map (- ·) = q.coeffs.map (· * (-1)) := by simp
  rw [sub, toPoly_ofList, polyOf_addList, hneg, polyOf_map_mul, toPoly, toPoly, C_neg, C_1]
  ring

theorem polyOf_mulList (xs ys : List Rat) : polyOf (mulList xs ys) = polyOf xs * polyOf ys := by
  induction xs with
  | nil => simp [mulList]
  | cons x xs ih =>
    have hcomm : ys.map (x * ·) = ys.map (· * x) := List.map_congr_left fun y _ => mul_comm x y
    rw [mulList, polyOf_addList, hcomm, polyOf_map_mul, polyOf_cons, polyOf_cons, ih, C_0]
    ring

theorem toPoly_mul (p q : RatPoly) : (p.mul q).toPoly = p.toPoly * q.toPoly := by
  rw [mul, toPoly_ofList, polyOf_mulList, toPoly, toPoly]

theorem toPoly_ofConst (c : Rat) : (ofConst c).toPoly = C c := by
  rw [ofConst, toPoly_ofList]
  simp

theorem toPoly_linear (r : Rat) : (linear r).toPoly = X - C r := by
  rw [linear, toPoly_ofList]
  simp
  ring

theorem toPoly_pow (p : RatPoly) (n : Nat) : (p.pow n).toPoly = p.toPoly ^ n := by
  induction n with
  | zero => rw [pow, toPoly_ofConst, C_1, pow_zero]
  | succ n ih => rw [pow, toPoly_mul, ih, pow_succ]

theorem toPoly_shift (p : RatPoly) (c : Rat) : (p.shift c).toPoly = p.toPoly.comp (X + C c) := by
  have hlist (cs : List Rat) : (shiftList c cs).toPoly = (polyOf cs).comp (X + C c) := by
    induction cs with
    | nil => simp [shiftList, zero]
    | cons a as ih =>
      rw [shiftList, toPoly_add, toPoly_mul, ih, toPoly_linear, toPoly_ofConst, polyOf_cons, C_neg]
      simp
      ring
  exact hlist p.coeffs

theorem derivative_polyOf_integralFrom (k : Nat) (cs : List Rat) :
    Polynomial.derivative (X ^ (k + 1) * polyOf (integralFrom k cs)) = X ^ k * polyOf cs := by
  induction cs generalizing k with
  | nil => simp [integralFrom]
  | cons c cs ih =>
    have hk : ((k : ℚ) + 1) ≠ 0 := by positivity
    have hsplit : X ^ (k + 1) * polyOf (integralFrom k (c :: cs)) =
        C (c / (k + 1)) * X ^ (k + 1) + X ^ (k + 2) * polyOf (integralFrom (k + 1) cs) := by
      rw [integralFrom, polyOf_cons]
      ring
    rw [hsplit, derivative_add, ih, derivative_C_mul_X_pow, polyOf_cons, Nat.cast_succ, div_mul_cancel₀ _ hk,
      Nat.add_sub_cancel]
    ring

/-- The integral is an antiderivative. -/
theorem derivative_integral (p : RatPoly) : Polynomial.derivative p.integral.toPoly = p.toPoly := by
  have h := derivative_polyOf_integralFrom 0 p.coeffs
  rw [integral, toPoly_ofList, polyOf_cons, C_0, zero_add, toPoly]
  simpa using h

/-! ## Power series -/

theorem coeff_eq (p : RatPoly) (k : Nat) : p.coeff k = p.toPoly.coeff k := by
  rw [toPoly, coeff_polyOf, coeff]

theorem polyOf_append (xs ys : List Rat) : polyOf (xs ++ ys) = polyOf xs + X ^ xs.length * polyOf ys := by
  induction xs with
  | nil => simp
  | cons x xs ih =>
    rw [List.cons_append, polyOf_cons, polyOf_cons, ih, List.length_cons]
    ring

/-- What the running sum of the next coefficient has taken off. -/
theorem foldl_sub_coeff (b : RatPoly) (k : Nat) (s : List Rat) {n : Nat} (h : n + s.length ≤ k + 1) (acc : Rat) :
    (s.zipIdx n).foldl (fun acc x => acc - x.1 * b.coeff (k - x.2)) acc =
      acc - (X ^ n * (polyOf s * b.toPoly)).coeff k := by
  induction s generalizing n acc with
  | nil => simp
  | cons a s ih =>
    rw [List.length_cons] at h
    have hsplit : X ^ n * (polyOf (a :: s) * b.toPoly) =
        X ^ n * (C a * b.toPoly) + X ^ (n + 1) * (polyOf s * b.toPoly) := by
      rw [polyOf_cons]
      ring
    have hcoeff : (X ^ n * (C a * b.toPoly)).coeff k = a * b.coeff (k - n) := by
      rw [coeff_X_pow_mul', if_pos (by omega), coeff_C_mul, coeff_eq]
    rw [List.zipIdx_cons, List.foldl_cons, ih (by omega), hsplit, coeff_add, hcoeff]
    ring

theorem length_series (a b : RatPoly) (m : Nat) : (series a b m).length = m := by
  induction m with
  | zero => rfl
  | succ m ih => rw [series, List.length_append, ih, List.length_singleton]

/-- The series leaves a multiple of a power of the variable. -/
theorem series_spec (a : RatPoly) {b : RatPoly} (hb : b.coeff 0 ≠ 0) (m : Nat) :
    X ^ m ∣ a.toPoly - polyOf (series a b m) * b.toPoly := by
  induction m with
  | zero => simp
  | succ m hdvd =>
    have hlen := length_series a b m
    rw [X_pow_dvd_iff] at hdvd
    have hnext : seriesNext a b (series a b m) * b.coeff 0 = (a.toPoly - polyOf (series a b m) * b.toPoly).coeff m := by
      rw [seriesNext, div_mul_cancel₀ _ hb, hlen, foldl_sub_coeff b m _ (by omega), pow_zero, one_mul, coeff_sub, coeff_eq]
    have hsplit : a.toPoly - polyOf (series a b (m + 1)) * b.toPoly = (a.toPoly - polyOf (series a b m) * b.toPoly) -
        X ^ m * (C (seriesNext a b (series a b m)) * b.toPoly) := by
      rw [series, polyOf_append, hlen, polyOf_cons, polyOf_nil]
      ring
    refine X_pow_dvd_iff.2 fun k hk => ?_
    rw [hsplit, coeff_sub, coeff_X_pow_mul']
    rcases Nat.lt_succ_iff_lt_or_eq.1 hk with hk | rfl
    · rw [hdvd k hk, if_neg (by omega), sub_zero]
    · rw [if_pos le_rfl, Nat.sub_self, coeff_C_mul, ← coeff_eq, hnext, sub_self]

/-- The series at a root, in powers of the linear factor. -/
theorem shifted_series_spec (p : RatPoly) {h : RatPoly} {r : Rat} (hr : h.toPoly.eval r ≠ 0) (m : Nat) :
    (X - C r) ^ m ∣ p.toPoly - (polyOf (series (p.shift r) (h.shift r) m)).comp (X - C r) * h.toPoly := by
  have hback (q : RatPoly) : (q.shift r).toPoly.comp (X - C r) = q.toPoly := by
    rw [toPoly_shift, comp_assoc]
    simp
  have hzero : (h.shift r).coeff 0 ≠ 0 := by
    rw [coeff_eq, toPoly_shift, coeff_zero_eq_eval_zero, eval_comp]
    simpa using hr
  obtain ⟨w, hw⟩ := series_spec (p.shift r) hzero m
  refine ⟨w.comp (X - C r), ?_⟩
  have hcomp := congrArg (·.comp (X - C r)) hw
  simpa only [sub_comp, mul_comp, hback, X_pow_comp] using hcomp

/-! ## Roots and multiplicities -/

theorem toPoly_deflate_add (p : RatPoly) (r : Rat) :
    p.toPoly = (X - C r) * (p.deflate r).toPoly + C (p.eval r) := by
  refine Polynomial.funext fun x => ?_
  rw [← eval_eq, eval_deflate_add p r x, Polynomial.eval_add, Polynomial.eval_mul, ← eval_eq]
  simp

theorem toPoly_deflate {p : RatPoly} {r : Rat} (hr : p.eval r = 0) :
    p.toPoly = (X - C r) * (p.deflate r).toPoly := by
  rw [toPoly_deflate_add p r, hr, C_0, add_zero]

theorem length_deflate (p : RatPoly) (r : Rat) : (p.deflate r).coeffs.length ≤ p.coeffs.length - 1 := by
  have htail (cs : List Rat) : (tailValues r cs).length = cs.length := by
    induction cs with
    | nil => rfl
    | cons c cs ih => rw [tailValues_cons, List.length_cons, ih, List.length_cons]
  refine (length_stripZeros_le _).trans ?_
  rw [htail, List.length_tail]

theorem isZero_eq_false {p : RatPoly} (h : p.toPoly ≠ 0) : p.isZero = false :=
  Bool.eq_false_of_not_eq_true fun hz => h (toPoly_eq_zero hz)

/-- A root is divided out with its multiplicity. -/
theorem rootMultiplicity_spec (r : Rat) (n : Nat) {p : RatPoly} (hp : p.isZero = false) (hn : p.coeffs.length ≤ n) :
    p.toPoly = (X - C r) ^ (rootMultiplicity r n p).1 * (rootMultiplicity r n p).2.toPoly ∧
      (rootMultiplicity r n p).2.lead = p.lead ∧ (rootMultiplicity r n p).2.toPoly.eval r ≠ 0 := by
  induction n generalizing p with
  | zero =>
    have hnil : p.coeffs = [] := List.length_eq_zero_iff.1 (Nat.le_zero.1 hn)
    simp [isZero, hnil] at hp
  | succ n ih =>
    rw [rootMultiplicity]
    split
    · rename_i h
      simp only [Bool.and_eq_true, decide_eq_true_eq] at h
      have hsplit := toPoly_deflate h.2
      have hzero : (p.deflate r).toPoly ≠ 0 := fun h0 => toPoly_ne_zero hp (by rw [hsplit, h0, mul_zero])
      have hlen := length_deflate p r
      obtain ⟨hrest, hlead, hne⟩ := ih (isZero_eq_false hzero) (by omega)
      refine ⟨?_, hlead.trans (lead_deflate h.1 r), hne⟩
      rw [hsplit, hrest, pow_succ]
      ring
    · rename_i h
      refine ⟨by simp, rfl, fun h0 => h ?_⟩
      simp only [Bool.and_eq_true, decide_eq_true_eq]
      refine ⟨?_, by rw [eval_eq, h0]⟩
      -- A constant that is not zero has no roots.
      by_contra hshort
      rcases hcs : p.coeffs with _ | ⟨c, _ | ⟨d, cs⟩⟩
      · simp [isZero, hcs] at hp
      · rw [toPoly, hcs] at h0
        have hlast := p.lead_ne_zero
        rw [hcs] at hlast
        simp at h0 hlast
        exact hlast h0
      · simp [hcs] at hshort

/-- A polynomial is the product of the powers of the linear factors and of what is left, which has none of the roots. -/
theorem splitRoots_spec (rs : List Rat) {p : RatPoly} (hp : p.isZero = false) :
    (splitRoots rs p).1.map Prod.fst = rs ∧
      p.toPoly = ((splitRoots rs p).1.map fun r => (X - C r.1) ^ r.2).prod * (splitRoots rs p).2.toPoly ∧
      (splitRoots rs p).2.lead = p.lead ∧ ∀ r ∈ rs, (splitRoots rs p).2.toPoly.eval r ≠ 0 := by
  induction rs generalizing p with
  | nil => simp [splitRoots]
  | cons r rs ih =>
    obtain ⟨hsplit, hlead, hne⟩ := rootMultiplicity_spec r p.coeffs.length hp le_rfl
    have hzero : (rootMultiplicity r p.coeffs.length p).2.isZero = false :=
      isZero_eq_false fun h0 => hne (by rw [h0, eval_zero])
    obtain ⟨hroots, hrest, hlead', hnone⟩ := ih hzero
    rw [splitRoots]
    refine ⟨by rw [List.map_cons, hroots], ?_, hlead'.trans hlead, List.forall_mem_cons.2 ⟨?_, hnone⟩⟩
    · rw [List.map_cons, List.prod_cons, mul_assoc, ← hrest, ← hsplit]
    · rw [hrest, Polynomial.eval_mul] at hne
      exact right_ne_zero_of_mul hne

/-! ## Principal parts -/

/-- What is left of a denominator without a power of a linear factor. -/
def cofactor (d : RatPoly) (r : Rat) (m : Nat) : RatPoly := (d.divMod ((linear r).pow m)).1

/-- The numerator, over the power of the linear factor, that the parts at a root add up to. -/
noncomputable def principal (p d : RatPoly) (r : Rat) (m : Nat) : ℚ[X] :=
  (polyOf (series (p.shift r) ((d.cofactor r m).shift r) m)).comp (X - C r)

theorem toPoly_linear_pow (r : Rat) (m : Nat) : ((linear r).pow m).toPoly = (X - C r) ^ m := by
  rw [toPoly_pow, toPoly_linear]

theorem linear_pow_ne_zero (r : Rat) (m : Nat) : (X - C r : ℚ[X]) ^ m ≠ 0 := pow_ne_zero _ (X_sub_C_ne_zero r)

theorem toPoly_cofactor {d : RatPoly} {r : Rat} {m : Nat} {g : ℚ[X]} (h : d.toPoly = (X - C r) ^ m * g) :
    (d.cofactor r m).toPoly = g := by
  have hzero : ((linear r).pow m).isZero = false :=
    isZero_eq_false (by rw [toPoly_linear_pow]; exact linear_pow_ne_zero r m)
  have hdiv := divMod_of_dvd hzero (p := d) (by rw [toPoly_linear_pow, h]; exact dvd_mul_right _ _)
  rw [toPoly_linear_pow, h, mul_comm] at hdiv
  exact (mul_right_cancel₀ (linear_pow_ne_zero r m) hdiv).symm

theorem dvd_sub_principal (p : RatPoly) {d : RatPoly} {r : Rat} {m : Nat} {g : ℚ[X]}
    (h : d.toPoly = (X - C r) ^ m * g) (hg : g.eval r ≠ 0) :
    (X - C r) ^ m ∣ p.toPoly - principal p d r m * g := by
  have hdvd := shifted_series_spec p (h := d.cofactor r m) (r := r) (by rwa [toPoly_cofactor h]) m
  rwa [toPoly_cofactor h] at hdvd

theorem degree_principal_mul {p d : RatPoly} {r : Rat} {m : Nat} {g : ℚ[X]} (hd : d.toPoly ≠ 0)
    (h : d.toPoly = (X - C r) ^ m * g) : (principal p d r m * g).degree < d.toPoly.degree := by
  have hg : g ≠ 0 := by
    rintro rfl
    exact hd (by rw [h, mul_zero])
  have hprincipal : (principal p d r m).degree < m := by
    have htaylor : principal p d r m =
        taylor (-r) (polyOf (series (p.shift r) ((d.cofactor r m).shift r) m)) := by
      rw [taylor_apply, C_neg, ← sub_eq_add_neg]
      rfl
    have hlt := degree_polyOf_lt (series (p.shift r) ((d.cofactor r m).shift r) m)
    rwa [length_series, ← degree_taylor _ (-r), ← htaylor] at hlt
  rw [h, degree_mul, degree_mul, degree_pow, degree_X_sub_C, nsmul_one]
  exact WithBot.add_lt_add_right (by simpa using hg) hprincipal

/-! ### Parts -/

/-- The parts of a row of coefficients are its value over a power. -/
theorem sum_zipIdx_div {y : Rat} (hy : y ≠ 0) (m : Nat) (s : List Rat) {n : Nat} (h : n + s.length ≤ m) :
    (((s.zipIdx n).filter fun a => a.1 ≠ 0).map fun a => a.1 / y ^ (m - a.2)).sum =
      y ^ n * (polyOf s).eval y / y ^ m := by
  induction s generalizing n with
  | nil => simp
  | cons a s ih =>
    rw [List.length_cons] at h
    have hpow : y ^ m = y ^ (m - n) * y ^ n := by rw [← pow_add, Nat.sub_add_cancel (by omega)]
    have hrest := ih (n := n + 1) (by omega)
    have hyn := pow_ne_zero n hy
    have hym := pow_ne_zero (m - n) hy
    rw [polyOf_cons, List.zipIdx_cons]
    simp only [Polynomial.eval_add, eval_C, Polynomial.eval_mul, eval_X]
    by_cases ha : a = 0
    · rw [List.filter_cons_of_neg (by simpa using ha), hrest, ha]
      ring
    · rw [List.filter_cons_of_pos (by simpa using ha), List.map_cons, List.sum_cons, hrest, hpow]
      field_simp
      ring

theorem eval_principal (p d : RatPoly) {r x : Rat} (hx : x - r ≠ 0) (m : Nat) :
    ((p.partsAt d r m).map fun a => a.2 / (x - r) ^ a.1).sum = (principal p d r m).eval x / (x - r) ^ m := by
  have hparts := sum_zipIdx_div hx m (series (p.shift r) ((d.cofactor r m).shift r) m) (n := 0)
    (by rw [length_series, zero_add])
  rw [pow_zero, one_mul] at hparts
  rw [partsAt, List.map_map, principal, eval_comp, Polynomial.eval_sub, eval_X, eval_C, ← hparts]
  rfl

/-- Every part stands over a power that the denominator has, and is not zero. -/
theorem mem_partsAt {p d : RatPoly} {r : Rat} {m : Nat} {a : Nat × Rat} (h : a ∈ p.partsAt d r m) :
    (0 < a.1 ∧ a.1 ≤ m) ∧ a.2 ≠ 0 := by
  rw [partsAt] at h
  obtain ⟨⟨c, k⟩, hmem, rfl⟩ := List.mem_map.1 h
  obtain ⟨hmem, hc⟩ := List.mem_filter.1 hmem
  have hk := (List.mem_zipIdx hmem).2.1
  rw [length_series, zero_add] at hk
  exact ⟨by dsimp only; omega, by simpa using hc⟩

/-- The parts of a row of coefficients, over a common denominator. -/
theorem sum_zipIdx_mul (d : RatPoly) {r : Rat} {m : Nat} {g : ℚ[X]} (hg : d.toPoly = (X - C r) ^ m * g) (s : List Rat)
    {n : Nat} (h : n + s.length ≤ m) :
    (((s.zipIdx n).filter fun a => a.1 ≠ 0).map fun a => C a.1 * (d.cofactor r (m - a.2)).toPoly).sum =
      (X - C r) ^ n * (polyOf s).comp (X - C r) * g := by
  induction s generalizing n with
  | nil => simp
  | cons a s ih =>
    rw [List.length_cons] at h
    have hcofactor : (d.cofactor r (m - n)).toPoly = (X - C r) ^ n * g := by
      refine toPoly_cofactor ?_
      rw [hg, ← mul_assoc, ← pow_add, Nat.sub_add_cancel (by omega)]
    have hrest := ih (n := n + 1) (by omega)
    rw [polyOf_cons, List.zipIdx_cons, add_comp, mul_comp, C_comp, X_comp]
    by_cases ha : a = 0
    · rw [List.filter_cons_of_neg (by simpa using ha), hrest, ha, C_0]
      ring
    · rw [List.filter_cons_of_pos (by simpa using ha), List.map_cons, List.sum_cons, hrest, hcofactor]
      ring

theorem principal_mul (p : RatPoly) {d : RatPoly} {r : Rat} {m : Nat} {g : ℚ[X]} (hg : d.toPoly = (X - C r) ^ m * g) :
    ((p.partsAt d r m).map fun a => C a.2 * (d.cofactor r a.1).toPoly).sum = principal p d r m * g := by
  have hparts := sum_zipIdx_mul d hg (series (p.shift r) ((d.cofactor r m).shift r) m) (n := 0)
    (by rw [length_series, zero_add])
  rw [pow_zero, one_mul] at hparts
  rw [partsAt, List.map_map, principal, ← hparts]
  rfl

/-! ## Decomposition -/

theorem isCoprime_linear_pow {a b : Rat} (h : a ≠ b) (m k : Nat) :
    IsCoprime ((X - C a : ℚ[X]) ^ m) ((X - C b) ^ k) :=
  (isCoprime_X_sub_C_of_isUnit_sub (sub_ne_zero.2 h).isUnit).pow

/-- What is subtracted for all roots leaves a multiple of all powers of the linear factors. -/
theorem prod_dvd_sub_sum {ms : List (Rat × Nat)} (hms : (ms.map Prod.fst).Nodup) {n d : ℚ[X]} {g s : Rat × Nat → ℚ[X]}
    (hg : ∀ a ∈ ms, d = (X - C a.1) ^ a.2 * g a) (hs : ∀ a ∈ ms, (X - C a.1) ^ a.2 ∣ n - s a * g a) :
    (ms.map fun a => (X - C a.1) ^ a.2).prod ∣ n - (ms.map fun a => s a * g a).sum := by
  have hnodup := List.Nodup.of_map _ hms
  have hne : ∀ a ∈ ms, ∀ b ∈ ms, a ≠ b → a.1 ≠ b.1 := fun a ha b hb hab heq =>
    hab (List.inj_on_of_nodup_map hms ha hb heq)
  rw [← List.prod_toFinset _ hnodup, ← List.sum_toFinset _ hnodup]
  refine Finset.prod_dvd_of_coprime (fun a ha b hb hab => ?_) fun a ha => ?_
  · exact isCoprime_linear_pow (hne a (List.mem_toFinset.1 ha) b (List.mem_toFinset.1 hb) hab) _ _
  · rw [← Finset.add_sum_erase _ _ ha, ← sub_sub]
    refine dvd_sub (hs a (List.mem_toFinset.1 ha)) (Finset.dvd_sum fun b hb => Dvd.dvd.mul_left ?_ _)
    -- The power divides the denominator, and is coprime to the power of another linear factor.
    obtain ⟨hba, hb⟩ := Finset.mem_erase.1 hb
    refine (isCoprime_linear_pow (hne a (List.mem_toFinset.1 ha) b (List.mem_toFinset.1 hb) hba.symm) _ b.2).dvd_of_dvd_mul_left
      ?_
    rw [← hg b (List.mem_toFinset.1 hb)]
    exact ⟨g a, hg a (List.mem_toFinset.1 ha)⟩

/-- A polynomial taken apart into powers of different linear factors and a rest without their roots. -/
structure Split (d : RatPoly) (ms : List (Rat × Nat)) (q : RatPoly) : Prop where
  nodup : (ms.map Prod.fst).Nodup
  eq : d.toPoly = (ms.map fun a => (X - C a.1) ^ a.2).prod * q.toPoly
  rest : ∀ a ∈ ms, q.toPoly.eval a.1 ≠ 0

theorem split_splitRoots {d : RatPoly} (hd : d.isZero = false) {rs : List Rat} (hrs : rs.Nodup) :
    Split d (splitRoots rs d).1 (splitRoots rs d).2 := by
  obtain ⟨hroots, heq, -, hrest⟩ := splitRoots_spec rs hd
  exact ⟨by rwa [hroots], heq, fun a ha => hrest a.1 (hroots ▸ List.mem_map_of_mem ha)⟩

/-- All parts of a fraction, each with its root. -/
def partsOf (p d : RatPoly) (ms : List (Rat × Nat)) : List (Rat × Nat × Rat) :=
  ms.flatMap fun root => (p.partsAt d root.1 root.2).map fun a => (root.1, a)

theorem sum_partsOf {A : Type*} [AddCommMonoid A] (p d : RatPoly) (ms : List (Rat × Nat)) (f : Rat × Nat × Rat → A) :
    ((partsOf p d ms).map f).sum =
      (ms.map fun root => ((p.partsAt d root.1 root.2).map fun a => f (root.1, a)).sum).sum := by
  rw [partsOf, List.flatMap_def, List.map_flatten, List.sum_flatten, List.map_map, List.map_map]
  simp [Function.comp_def]

namespace Split

variable {p d q : RatPoly} {ms : List (Rat × Nat)} (h : Split d ms q)

include h

theorem cofactor {a : Rat × Nat} (ha : a ∈ ms) :
    d.toPoly = (X - C a.1) ^ a.2 * (d.cofactor a.1 a.2).toPoly ∧ (d.cofactor a.1 a.2).toPoly.eval a.1 ≠ 0 := by
  obtain ⟨before, after, rfl⟩ := List.append_of_mem ha
  have hapart (b : Rat × Nat) (hb : b ∈ before ∨ b ∈ after) : ((X - C b.1) ^ b.2 : ℚ[X]).eval a.1 ≠ 0 := by
    have hne : a.1 ≠ b.1 := by
      have hnodup := h.nodup
      rw [List.map_append, List.map_cons, List.nodup_middle, List.nodup_cons, ← List.map_append] at hnodup
      exact fun heq => hnodup.1 (heq ▸ List.mem_map_of_mem (List.mem_append.2 hb))
    simpa using fun h0 => absurd h0 (sub_ne_zero.2 hne)
  have heval (bs : List (Rat × Nat)) (hbs : ∀ b ∈ bs, b ∈ before ∨ b ∈ after) :
      (bs.map fun b => ((X - C b.1) ^ b.2 : ℚ[X])).prod.eval a.1 ≠ 0 := by
    rw [eval_list_prod, List.map_map]
    refine List.prod_ne_zero fun hmem => ?_
    obtain ⟨b, hb, h0⟩ := List.mem_map.1 hmem
    exact hapart b (hbs b hb) h0
  have heq : d.toPoly = (X - C a.1) ^ a.2 * ((before.map fun b => (X - C b.1) ^ b.2).prod *
      (after.map fun b => (X - C b.1) ^ b.2).prod * q.toPoly) := by
    rw [h.eq, List.map_append, List.map_cons, List.prod_append, List.prod_cons]
    ring
  rw [toPoly_cofactor heq]
  refine ⟨heq, ?_⟩
  rw [Polynomial.eval_mul, Polynomial.eval_mul]
  exact mul_ne_zero (mul_ne_zero (heval before fun b hb => .inl hb) (heval after fun b hb => .inr hb)) (h.rest a ha)

/-- The parts at all roots leave a multiple of all powers, and a proper fraction leaves one over the rest. -/
theorem exists_remainder (hd : d.toPoly ≠ 0) (hp : p.toPoly.degree < d.toPoly.degree) :
    ∃ t : ℚ[X], p.toPoly - (ms.map fun a => principal p d a.1 a.2 * (d.cofactor a.1 a.2).toPoly).sum =
      (ms.map fun a => (X - C a.1) ^ a.2).prod * t ∧ t.degree < q.toPoly.degree := by
  obtain ⟨t, ht⟩ := prod_dvd_sub_sum h.nodup (n := p.toPoly) (s := fun a => principal p d a.1 a.2)
    (fun a ha => (h.cofactor ha).1) fun a ha => dvd_sub_principal p (h.cofactor ha).1 (h.cofactor ha).2
  refine ⟨t, ht, ?_⟩
  have hsum : (ms.map fun a => principal p d a.1 a.2 * (d.cofactor a.1 a.2).toPoly).sum.degree < d.toPoly.degree := by
    refine List.sum_induction (fun f : ℚ[X] => f.degree < d.toPoly.degree)
      (fun f g hf hg => (degree_add_le f g).trans_lt (max_lt hf hg)) ?_ fun f hf => ?_
    · rw [degree_zero]
      exact bot_lt_iff_ne_bot.2 (mt degree_eq_bot.1 hd)
    · obtain ⟨a, ha, rfl⟩ := List.mem_map.1 hf
      exact degree_principal_mul hd (h.cofactor ha).1
  have hlt := (degree_sub_le _ _).trans_lt (max_lt hp hsum)
  rw [ht, h.eq, degree_mul, degree_mul] at hlt
  exact lt_of_add_lt_add_left hlt

theorem eval_prod_ne_zero {x : Rat} (hx : d.toPoly.eval x ≠ 0) :
    ((ms.map fun a => (X - C a.1) ^ a.2).prod : ℚ[X]).eval x ≠ 0 ∧ q.toPoly.eval x ≠ 0 := by
  rw [h.eq, Polynomial.eval_mul] at hx
  exact ⟨left_ne_zero_of_mul hx, right_ne_zero_of_mul hx⟩

/-- A root with parts is a root of the polynomial. -/
theorem root_of_mem_partsOf {a : Rat × Nat × Rat} (ha : a ∈ partsOf p d ms) :
    d.toPoly.eval a.1 = 0 ∧ a.2.2 ≠ 0 := by
  obtain ⟨root, hroot, ha⟩ := List.mem_flatMap.1 ha
  obtain ⟨b, hb, rfl⟩ := List.mem_map.1 ha
  obtain ⟨⟨hpos, hle⟩, hb0⟩ := mem_partsAt hb
  refine ⟨?_, hb0⟩
  rw [(h.cofactor hroot).1, Polynomial.eval_mul, Polynomial.eval_pow, Polynomial.eval_sub, eval_X, eval_C, sub_self,
    zero_pow (by omega), zero_mul]

/-- The value of a proper fraction is the sum of its parts and of what is left over the rest. -/
theorem eval_div {t : ℚ[X]}
    (ht : p.toPoly - (ms.map fun a => principal p d a.1 a.2 * (d.cofactor a.1 a.2).toPoly).sum =
      (ms.map fun a => (X - C a.1) ^ a.2).prod * t) {x : Rat} (hx : d.toPoly.eval x ≠ 0) :
    p.toPoly.eval x / d.toPoly.eval x =
      ((partsOf p d ms).map fun a => a.2.2 / (x - a.1) ^ a.2.1).sum + t.eval x / q.toPoly.eval x := by
  obtain ⟨hw, hq⟩ := h.eval_prod_ne_zero hx
  have hroot : ∀ a ∈ ms, ((p.partsAt d a.1 a.2).map fun b => b.2 / (x - a.1) ^ b.1).sum =
      (principal p d a.1 a.2 * (d.cofactor a.1 a.2).toPoly).eval x * (d.toPoly.eval x)⁻¹ := by
    rintro ⟨r, m⟩ ha
    obtain ⟨hd, -⟩ := h.cofactor ha
    dsimp only at hd ⊢
    have hdx : d.toPoly.eval x = (x - r) ^ m * (d.cofactor r m).toPoly.eval x := by
      conv_lhs => rw [hd]
      simp
    rw [hdx] at hx ⊢
    cases m with
    | zero => simp [partsAt, principal, series]
    | succ m =>
      have hxr : x - r ≠ 0 := ne_zero_pow (Nat.succ_ne_zero m) (left_ne_zero_of_mul hx)
      rw [eval_principal p d hxr, Polynomial.eval_mul, ← div_eq_mul_inv,
        mul_div_mul_right _ _ (right_ne_zero_of_mul hx)]
  have heval := congrArg (Polynomial.eval x) (sub_eq_iff_eq_add'.1 ht)
  rw [Polynomial.eval_add, Polynomial.eval_mul, eval_listSum, List.map_map] at heval
  rw [sum_partsOf, List.map_congr_left hroot, List.sum_map_mul_right, heval, add_div, div_eq_mul_inv]
  congr 1
  rw [h.eq, Polynomial.eval_mul, mul_div_mul_left _ _ hw]

end Split

/-! ## The rest -/

theorem degree_eq {q : RatPoly} {k : Nat} (h : q.degree? = some k) : q.toPoly.degree = k := by
  have hlen : q.coeffs.length = k + 1 := by
    unfold degree? at h
    split at h
    · cases h
    · rename_i hcs
      rw [hcs, List.length_cons, Option.some.inj h]
  have hz : q.isZero = false := by
    rw [isZero, List.isEmpty_eq_false_iff]
    rintro hnil
    rw [hnil] at hlen
    cases hlen
  obtain ⟨hlast, hlead⟩ := getLast?_coeffs hz
  have hlow := length_le_degree_polyOf hlast hlead
  have hhigh := degree_polyOf_lt q.coeffs
  rw [hlen, Nat.add_sub_cancel] at hlow
  rw [hlen, degree_lt_iff_coeff_zero] at hhigh
  exact le_antisymm ((degree_le_iff_coeff_zero _ _).2 fun m hm => hhigh m (Nat.cast_lt.1 hm)) hlow

/-- What the parts at the roots add up to, over the whole denominator. -/
def removedBy (d : RatPoly) (parts : List (Rat × Nat × Rat)) : RatPoly :=
  parts.foldl (fun acc a => acc.add ((d.divMod ((linear a.1).pow a.2.1)).1.scale a.2.2)) zero

theorem Split.toPoly_removedBy {p d q : RatPoly} {ms : List (Rat × Nat)} (h : Split d ms q) :
    (removedBy d (partsOf p d ms)).toPoly =
      (ms.map fun a => principal p d a.1 a.2 * (d.cofactor a.1 a.2).toPoly).sum := by
  have hfold (parts : List (Rat × Nat × Rat)) (acc : RatPoly) :
      (parts.foldl (fun acc a => acc.add ((d.divMod ((linear a.1).pow a.2.1)).1.scale a.2.2)) acc).toPoly =
        acc.toPoly + (parts.map fun a => C a.2.2 * (d.cofactor a.1 a.2.1).toPoly).sum := by
    induction parts generalizing acc with
    | nil => simp
    | cons a parts ih =>
      rw [List.foldl_cons, ih, toPoly_add, toPoly_scale, List.map_cons, List.sum_cons, add_assoc]
      rfl
  have hzero : zero.toPoly = 0 := by simp [zero]
  rw [removedBy, hfold, hzero, zero_add, sum_partsOf]
  exact congrArg List.sum (List.map_congr_left fun a ha => principal_mul p (h.cofactor ha).1)

/-- A proper fraction is the sum of its parts and of the fraction over the rest whose numerator is found by division. -/
theorem Split.eval_rest {p d q : RatPoly} {ms : List (Rat × Nat)} (h : Split d ms q) (hd : d.isZero = false)
    (hp : p.toPoly.degree < d.toPoly.degree) {u : RatPoly}
    (hu : u = ((p.sub (removedBy d (partsOf p d ms))).divMod (d.divMod q).1).1) :
    u.toPoly.degree < q.toPoly.degree ∧ ∀ x, d.toPoly.eval x ≠ 0 → p.toPoly.eval x / d.toPoly.eval x =
      ((partsOf p d ms).map fun a => a.2.2 / (x - a.1) ^ a.2.1).sum + u.toPoly.eval x / q.toPoly.eval x := by
  obtain ⟨t, ht, hdeg⟩ := h.exists_remainder (toPoly_ne_zero hd) hp
  have hq : q.toPoly ≠ 0 := fun h0 => toPoly_ne_zero hd (by rw [h.eq, h0, mul_zero])
  have hothers : (d.divMod q).1.toPoly = (ms.map fun a => (X - C a.1) ^ a.2).prod := by
    have hdiv := divMod_of_dvd (isZero_eq_false hq) (p := d) ⟨_, by rw [h.eq, mul_comm]⟩
    rw [h.eq] at hdiv
    exact (mul_right_cancel₀ hq hdiv).symm
  have hprod : (d.divMod q).1.toPoly ≠ 0 := fun h0 => by
    rw [hothers] at h0
    exact toPoly_ne_zero hd (by rw [h.eq, h0, zero_mul])
  have hut : u.toPoly = t := by
    have hnum : (p.sub (removedBy d (partsOf p d ms))).toPoly = (d.divMod q).1.toPoly * t := by
      rw [toPoly_sub, h.toPoly_removedBy, ht, hothers]
    have hdiv := divMod_of_dvd (isZero_eq_false hprod) (p := p.sub (removedBy d (partsOf p d ms))) ⟨t, hnum⟩
    rw [hnum, mul_comm, ← hu] at hdiv
    exact (mul_right_cancel₀ hprod hdiv).symm
  exact ⟨hut ▸ hdeg, fun x hx => hut ▸ h.eval_div ht hx⟩

/-- With nothing left a proper fraction is the sum of its parts. -/
theorem Split.eval_parts {p d q : RatPoly} {ms : List (Rat × Nat)} (h : Split d ms q) (hd : d.isZero = false)
    (hp : p.toPoly.degree < d.toPoly.degree) (hq : q.degree? = some 0) {x : Rat} (hx : d.toPoly.eval x ≠ 0) :
    p.toPoly.eval x / d.toPoly.eval x = ((partsOf p d ms).map fun a => a.2.2 / (x - a.1) ^ a.2.1).sum := by
  obtain ⟨t, ht, hdeg⟩ := h.exists_remainder (toPoly_ne_zero hd) hp
  have ht0 : t = 0 := by
    rw [degree_eq hq] at hdeg
    exact degree_eq_bot.1 (Nat.WithBot.lt_zero_iff.1 hdeg)
  rw [h.eval_div ht hx, ht0, eval_zero, zero_div, add_zero]

/-- With all roots divided out nothing is left of a product of linear factors. -/
theorem Split.degree?_rest {d q : RatPoly} {ms : List (Rat × Nat)} (h : Split d ms q) (hd : d.isZero = false) {c : Rat}
    {rs : List Rat} (hrs : d.toPoly = C c * (rs.map fun r => X - C r).prod) (hmem : ∀ r ∈ rs, r ∈ ms.map Prod.fst) :
    q.degree? = some 0 := by
  have hq : q.toPoly ≠ 0 := fun h0 => toPoly_ne_zero hd (by rw [h.eq, h0, mul_zero])
  have hc : c ≠ 0 := by
    rintro rfl
    exact toPoly_ne_zero hd (by rw [hrs, C_0, zero_mul])
  have hcoprime : ∀ l : List Rat, (∀ r ∈ l, r ∈ ms.map Prod.fst) → IsCoprime q.toPoly (l.map fun r => X - C r).prod := by
    intro l hl
    induction l with
    | nil => exact isCoprime_one_right
    | cons r l ih =>
      obtain ⟨hr, hrest⟩ := List.forall_mem_cons.1 hl
      obtain ⟨a, ha, rfl⟩ := List.mem_map.1 hr
      refine IsCoprime.mul_right ?_ (ih hrest)
      exact (((irreducible_X_sub_C a.1).coprime_iff_not_dvd).2 fun hdvd => h.rest a ha (dvd_iff_isRoot.1 hdvd)).symm
  have hunit : IsUnit q.toPoly := by
    have hdvd : q.toPoly ∣ C c * (rs.map fun r => X - C r).prod := ⟨_, by rw [← hrs, h.eq, mul_comm]⟩
    exact isUnit_of_dvd_unit ((hcoprime rs hmem).dvd_of_dvd_mul_right hdvd) (isUnit_C.2 hc.isUnit)
  have hdegree : q.toPoly.degree = 0 := degree_eq_zero_of_isUnit hunit
  cases hdeg : q.degree? with
  | none =>
    unfold degree? at hdeg
    split at hdeg
    · rename_i hnil
      exact absurd (by rw [toPoly, hnil, polyOf_nil]) hq
    · cases hdeg
  | some k =>
    rw [degree_eq hdeg] at hdegree
    exact congrArg some (Nat.cast_eq_zero.1 hdegree)

/-! ## Monic denominators -/

theorem isZero_monic {d : RatPoly} (hd : d.isZero = false) : d.monic.isZero = false := by
  refine isZero_eq_false ?_
  rw [toPoly_monic]
  exact mul_ne_zero (C_ne_zero.2 (inv_ne_zero (getLast?_coeffs hd).2)) (toPoly_ne_zero hd)

theorem lead_monic {d : RatPoly} (hd : d.isZero = false) : d.monic.lead = 1 := by
  obtain ⟨hlast, hlead⟩ := getLast?_coeffs hd
  have hmap : (d.coeffs.map (· / d.lead)).getLast? = some 1 := by
    rw [List.getLast?_map, hlast, Option.map_some, div_self hlead]
  have hcoeffs : d.monic.coeffs = d.coeffs.map (· / d.lead) := stripZeros_eq (by rw [hmap]; simp)
  rw [lead, hcoeffs, hmap, Option.getD_some]

theorem degree_monic {d : RatPoly} (hd : d.isZero = false) : d.monic.toPoly.degree = d.toPoly.degree := by
  rw [toPoly_monic, degree_C_mul (inv_ne_zero (getLast?_coeffs hd).2)]

theorem eval_linear_of_degree {u : RatPoly} (h : u.toPoly.degree < 2) (x : Rat) :
    u.toPoly.eval x = u.coeff 1 * x + u.coeff 0 := by
  have hle : u.toPoly.degree ≤ 1 := by
    rw [degree_le_iff_coeff_zero]
    rw [← Nat.cast_ofNat, degree_lt_iff_coeff_zero] at h
    exact fun m hm => h m (Nat.cast_lt.1 hm)
  rw [coeff_eq, coeff_eq]
  conv_lhs => rw [eq_X_add_C_of_degree_le_one hle]
  simp

theorem eval_quadratic_of_lead {q : RatPoly} (h : q.degree? = some 2) (hlead : q.lead = 1) (x : Rat) :
    q.toPoly.eval x = x * x + q.coeff 1 * x + q.coeff 0 := by
  match hcs : q.coeffs with
  | [] => simp [degree?, hcs] at h
  | [_] => simp [degree?, hcs] at h
  | [_, _] => simp [degree?, hcs] at h
  | [a, b, c] =>
    simp only [lead, hcs, List.getLast?_cons_cons, List.getLast?_singleton, Option.getD_some] at hlead
    simp [toPoly, coeff, hcs, hlead]
    ring
  | _ :: _ :: _ :: _ :: _ => simp [degree?, hcs] at h

end SymbolicSolver.RatPoly
