import Mathlib.Algebra.Polynomial.AlgebraMap
import Mathlib.Data.Complex.Basic
import SymbolicSolver.Proofs.Interpretation.Closure
import SymbolicSolver.Proofs.Polynomial.PartialFraction

/-!
# Closed forms give exactly the roots

Dividing out the rational roots splits a polynomial into powers of linear factors and a residual. If the residual is at
most quadratic, the rational roots and the quadratic formula give every root of the polynomial, in every field in which
the imaginary unit and the square roots that occur are read. Without complex roots exactly the real ones are left.
-/

namespace SymbolicSolver

namespace RatPoly

open Polynomial
open Expr (deflateAll)

variable {A : Type*} [CommRing A] [IsDomain A] [Algebra ℚ A]

/-! ## Dividing out roots -/

/-- Dividing out a rational again and again leaves the other roots, in every domain. -/
theorem aeval_deflateAll (r : Rat) (n : Nat) (p : RatPoly) {a : A} (ha : a ≠ algebraMap ℚ A r) :
    aeval a (deflateAll r n p).toPoly = 0 ↔ aeval a p.toPoly = 0 := by
  induction n generalizing p with
  | zero => rfl
  | succ n ih =>
    rw [deflateAll]
    split
    · rename_i h
      simp only [Bool.and_eq_true, decide_eq_true_eq] at h
      rw [ih, toPoly_deflate h.2, map_mul, mul_eq_zero, map_sub, aeval_X, aeval_C, or_iff_right (sub_ne_zero.2 ha)]
    · rfl

/-- The roots are the rational ones that were found and those of the residual. -/
theorem aeval_eq_zero_iff (p : RatPoly) (a : A) (hres : ∀ r ∈ p.rationalRoots, a ≠ algebraMap ℚ A r) :
    aeval a p.residual.toPoly = 0 ↔ aeval a p.toPoly = 0 := by
  unfold residual
  generalize p.rationalRoots = rs at hres
  induction rs generalizing p with
  | nil => rfl
  | cons r rs ih =>
    obtain ⟨hr, hrs⟩ := List.forall_mem_cons.1 hres
    rw [List.foldl_cons, ih _ hrs, aeval_deflateAll r _ p hr]

omit [IsDomain A] in
theorem aeval_of_mem_rationalRoots {p : RatPoly} {r : Rat} (h : r ∈ p.rationalRoots) :
    aeval (algebraMap ℚ A r) p.toPoly = 0 := by
  rw [aeval_algebraMap_apply, coe_aeval_eq_eval, ← eval_eq, eval_of_mem_rationalRoots h, map_zero]

/-! ## Small degrees -/

/-- A polynomial of degree zero, one or two by its coefficients. -/
theorem coeffs_of_degree {q : RatPoly} {k : Nat} (h : q.degree? = some k) (hk : k ≤ 2) :
    (∃ c, c ≠ 0 ∧ q.coeffs = [c] ∧ k = 0) ∨ (∃ b a, a ≠ 0 ∧ q.coeffs = [b, a] ∧ k = 1) ∨
      ∃ c b a, a ≠ 0 ∧ q.coeffs = [c, b, a] ∧ k = 2 := by
  have hlead := q.lead_ne_zero
  unfold degree? at h
  rcases hcs : q.coeffs with _ | ⟨c, _ | ⟨b, _ | ⟨a, _ | ⟨d, ds⟩⟩⟩⟩ <;> rw [hcs] at h hlead
  · cases h
  · exact .inl ⟨c, by simpa using hlead, rfl, by simpa using h.symm⟩
  · exact .inr (.inl ⟨c, b, by simpa using hlead, rfl, by simpa using h.symm⟩)
  · exact .inr (.inr ⟨c, b, a, by simpa using hlead, rfl, by simpa using h.symm⟩)
  · simp at h
    omega

end RatPoly

namespace Interpretation

open Polynomial (aeval)
open Expr hiding Defined
open RatPoly (residual)

/-- The expressions have values, and these are just the numbers with the property. -/
structure Lists {A : Type*} [CommRing A] [Algebra ℚ A] (I : Interpretation A) (xs : List Expr) (P : A → Prop) : Prop where
  sound : ∀ x ∈ xs, ∃ a, I.HasValue x a ∧ P a
  complete : ∀ a, P a → ∃ x ∈ xs, I.HasValue x a

section Field

variable {K : Type*} [Field K] [CharZero K] {I : Interpretation K}

theorem Lists.congr {xs : List Expr} {P Q : K → Prop} (h : I.Lists xs P) (hPQ : ∀ a, P a ↔ Q a) : I.Lists xs Q := by
  rwa [← funext fun a => propext (hPQ a)]

theorem lists_singleton {x : Expr} {a : K} (h : I.HasValue x a) : I.Lists [x] (· = a) :=
  ⟨fun _ hy => ⟨a, List.mem_singleton.1 hy ▸ h, rfl⟩, fun _ hb => ⟨x, List.mem_singleton_self x, hb ▸ h⟩⟩

theorem lists_pair {x y : Expr} {a b : K} (hx : I.HasValue x a) (hy : I.HasValue y b) :
    I.Lists [x, y] fun c => c = a ∨ c = b := by
  refine ⟨fun z hz => ?_, fun c hc => ?_⟩
  · rcases List.mem_cons.1 hz with rfl | hz
    · exact ⟨a, hx, .inl rfl⟩
    · exact ⟨b, List.mem_singleton.1 hz ▸ hy, .inr rfl⟩
  · rcases hc with hc | hc
    · exact ⟨x, List.mem_cons_self, hc ▸ hx⟩
    · exact ⟨y, List.mem_cons_of_mem _ (List.mem_singleton_self y), hc ▸ hy⟩

theorem HasValue.div_rat {x : Expr} {a : K} (hx : I.HasValue x a) {q : ℚ} (hq : q ≠ 0) :
    I.HasValue (x / rat q) (a / algebraMap ℚ K q) := by
  rw [div_eq_mul_inv, ← Ring.inverse_eq_inv']
  exact hx.div (hasValue_rat q) (isUnit_algebraMap hq)

/-! ## The quadratic formula -/

/-- Completing the square. -/
theorem quadratic_iff {a b c s : K} (ha : a ≠ 0) (hs : s * s = b * b - 4 * a * c) (w : K) :
    w = (-b - s) / (2 * a) ∨ w = (-b + s) / (2 * a) ↔ a * w ^ 2 + b * w + c = 0 := by
  have h2a : 2 * a ≠ 0 := mul_ne_zero two_ne_zero ha
  have hsquare : (2 * a * w + b - s) * (2 * a * w + b + s) = 4 * a * (a * w ^ 2 + b * w + c) := by
    linear_combination -hs
  rw [eq_div_iff h2a, eq_div_iff h2a]
  constructor
  · intro h
    have hzero : (2 * a * w + b - s) * (2 * a * w + b + s) = 0 := by
      rcases h with h | h
      · rw [mul_eq_zero]
        exact .inr (by linear_combination h)
      · rw [mul_eq_zero]
        exact .inl (by linear_combination h)
    rw [hsquare, mul_assoc, mul_eq_zero, mul_eq_zero] at hzero
    exact (hzero.resolve_left (by norm_num)).resolve_left ha
  · intro h
    rw [h, mul_zero, mul_eq_zero] at hsquare
    rcases hsquare with h | h
    · exact .inr (by linear_combination h)
    · exact .inl (by linear_combination h)

/-- The pair of roots has both values of the formula. -/
theorem HasRoots.rootPair (h : I.HasRoots) {a b d : ℚ} (ha : a ≠ 0) (hd : d ≠ 0) :
    ∃ s, s * s = algebraMap ℚ K d ∧ ∃ x y, Expr.rootPair a b d = [x, y] ∧
      I.HasValue x ((-algebraMap ℚ K b - s) / (2 * algebraMap ℚ K a)) ∧
        I.HasValue y ((-algebraMap ℚ K b + s) / (2 * algebraMap ℚ K a)) := by
  obtain ⟨s, hs, hsq⟩ := h.sqrt hd
  have hminus : I.HasValue (rat (-b)) (-algebraMap ℚ K b) := map_neg (algebraMap ℚ K) b ▸ hasValue_rat (-b)
  have htwo : 2 * algebraMap ℚ K a = algebraMap ℚ K (2 * a) := by rw [map_mul, map_ofNat]
  rw [htwo]
  have h2a : 2 * a ≠ 0 := mul_ne_zero two_ne_zero ha
  exact ⟨s, hsq, _, _, rfl, (hminus.sub hs).div_rat h2a, (hminus.add hs).div_rat h2a⟩

/-- The quadratic formula gives all solutions of the equation in the field. -/
theorem HasRoots.lists_quadraticRoots (h : I.HasRoots) {a b c : ℚ} (ha : a ≠ 0) (hsign : SignKnown (discriminant a b c)) :
    I.Lists (quadraticRoots (rat a) (rat b) (rat c) true) fun w =>
      algebraMap ℚ K a * w ^ 2 + algebraMap ℚ K b * w + algebraMap ℚ K c = 0 := by
  have ha' : algebraMap ℚ K a ≠ 0 := by simpa using ha
  have hdisc : algebraMap ℚ K (discriminant a b c) =
      algebraMap ℚ K b * algebraMap ℚ K b - 4 * algebraMap ℚ K a * algebraMap ℚ K c := by
    simp [discriminant]
  rw [quadraticRoots_rat hsign]
  split
  · rename_i hzero
    rw [hzero, map_zero] at hdisc
    have hvalue := (hasValue_rat (I := I) (-b)).div_rat (mul_ne_zero two_ne_zero ha)
    refine (lists_singleton hvalue).congr fun w => ?_
    rw [← quadratic_iff ha' (by rw [mul_zero, hdisc])]
    simp
  · rename_i hd
    rw [if_neg (by simp)]
    obtain ⟨s, hs, x, y, hpair, hx, hy⟩ := h.rootPair (b := b) ha hd
    rw [hpair]
    exact (lists_pair hx hy).congr fun w => quadratic_iff ha' (hs.trans hdisc) w

/-! ## What is left after the rational roots -/

variable {q : RatPoly} {k : ℕ} (hq : q.degree? = some k) (hk : k ≤ 2)
  (hsign : k = 2 → SignKnown (discriminant (q.coeff 2) (q.coeff 1) (q.coeff 0)))

include hq hk in
theorem residualRoots?_isSome (complex : Bool) : ∃ rest, residualRoots? q complex = some rest := by
  rw [residualRoots?, hq]
  obtain rfl | rfl | rfl : k = 0 ∨ k = 1 ∨ k = 2 := by omega
  all_goals exact ⟨_, rfl⟩

include hq hk hsign in
/-- A residual that is at most quadratic is solved in the field. -/
theorem HasRoots.lists_residualRoots? (h : I.HasRoots) {rest : List Expr} (hrest : residualRoots? q true = some rest) :
    I.Lists rest fun a => aeval a q.toPoly = 0 := by
  simp only [residualRoots?, hq, RatPoly.coeff] at hrest
  unfold RatPoly.coeff at hsign
  rcases RatPoly.coeffs_of_degree hq hk with ⟨c, hc, hcs, rfl⟩ | ⟨b, a, ha, hcs, rfl⟩ | ⟨c, b, a, ha, hcs, rfl⟩
  · obtain rfl := Option.some.inj hrest
    refine ⟨by simp, fun z hz => absurd hz ?_⟩
    simpa [RatPoly.toPoly, hcs] using hc
  · obtain rfl := Option.some.inj hrest
    simp only [hcs, List.getD_cons_zero, List.getD_cons_succ, neg_rat]
    refine (lists_singleton ((hasValue_rat (-b)).div_rat ha)).congr fun z => ?_
    have ha' : algebraMap ℚ K a ≠ 0 := by simpa using ha
    rw [eq_div_iff ha', map_neg]
    simp only [RatPoly.toPoly, hcs, RatPoly.polyOf_cons, RatPoly.polyOf_nil, map_add, map_mul, Polynomial.aeval_C,
      Polynomial.aeval_X, mul_zero, add_zero]
    rw [eq_neg_iff_add_eq_zero, add_comm]
  · obtain rfl := Option.some.inj hrest
    simp only [hcs, List.getD_cons_zero, List.getD_cons_succ] at hsign ⊢
    refine (h.lists_quadraticRoots ha (hsign trivial)).congr fun z => ?_
    simp only [RatPoly.toPoly, hcs, RatPoly.polyOf_cons, RatPoly.polyOf_nil, map_add, map_mul, Polynomial.aeval_C,
      Polynomial.aeval_X, mul_zero, add_zero]
    ring_nf

include hq hk in
theorem polynomialRoots?_eq {p : RatPoly} {n : ℕ} (hp : p.degree? = some (n + 1)) (hres : q = p.residual) (complex : Bool) :
    ∃ rest, residualRoots? q complex = some rest ∧
      polynomialRoots? p complex = some (sortRoots (p.rationalRoots.map rat ++ rest)) := by
  obtain ⟨rest, hrest⟩ := residualRoots?_isSome hq hk complex
  refine ⟨rest, hrest, ?_⟩
  rw [polynomialRoots?, hp]
  show (residualRoots? p.residual complex).map _ = _
  rw [← hres, hrest, Option.map_some]

include hq hk hsign in
/-- Where all square roots are read, the rational roots and those of the residual are all roots. -/
theorem HasRoots.lists_roots (h : I.HasRoots) {p : RatPoly} (hres : q = p.residual) {rest : List Expr}
    (hrest : residualRoots? q true = some rest) :
    I.Lists (sortRoots (p.rationalRoots.map rat ++ rest)) fun a => aeval a p.toPoly = 0 := by
  obtain ⟨hsound, hcomplete⟩ := h.lists_residualRoots? hq hk hsign hrest
  have hsplit (a : K) : aeval a p.toPoly = 0 ↔ (∃ r ∈ p.rationalRoots, a = algebraMap ℚ K r) ∨ aeval a q.toPoly = 0 := by
    by_cases hr : ∃ r ∈ p.rationalRoots, a = algebraMap ℚ K r
    · obtain ⟨r, hmem, rfl⟩ := hr
      exact iff_of_true (RatPoly.aeval_of_mem_rationalRoots hmem) (.inl ⟨r, hmem, rfl⟩)
    · rw [or_iff_right hr, hres, RatPoly.aeval_eq_zero_iff p a fun r hmem heq => hr ⟨r, hmem, heq⟩]
  constructor
  · intro x hx
    rw [mem_sortRoots, List.mem_append, List.mem_map] at hx
    rcases hx with ⟨r, hr, rfl⟩ | hx
    · exact ⟨_, hasValue_rat r, (hsplit _).2 (.inl ⟨r, hr, rfl⟩)⟩
    · obtain ⟨a, ha, hroot⟩ := hsound x hx
      exact ⟨a, ha, (hsplit a).2 (.inr hroot)⟩
  · intro a ha
    rcases (hsplit a).1 ha with ⟨r, hr, rfl⟩ | hroot
    · exact ⟨rat r, (mem_sortRoots _).2 (List.mem_append_left _ (List.mem_map_of_mem hr)), hasValue_rat r⟩
    · obtain ⟨x, hx, hvalue⟩ := hcomplete a hroot
      exact ⟨x, (mem_sortRoots _).2 (List.mem_append_right _ hx), hvalue⟩

/-- What lists the roots of a polynomial in the algebraic closure lists those in the field, if the field has the square
roots that occur. -/
theorem Lists.of_closure {xs : List Expr} {p : RatPoly} (h : I.closure.Lists xs fun a => aeval a p.toPoly = 0)
    (hreads : ∀ x ∈ xs, I.Reads x) : I.Lists xs fun a => aeval a p.toPoly = 0 := by
  have hroot (b : K) : aeval (algebraMap K (AlgebraicClosure K) b) p.toPoly = 0 ↔ aeval b p.toPoly = 0 := by
    rw [Polynomial.aeval_algebraMap_apply, map_eq_zero]
  constructor
  · intro x hx
    obtain ⟨a, ha, hzero⟩ := h.sound x hx
    obtain ⟨b, hb, rfl⟩ := (hreads x hx).hasValue ha
    exact ⟨b, hb, (hroot b).1 hzero⟩
  · intro a ha
    obtain ⟨x, hx, hvalue⟩ := h.complete _ ((hroot a).2 ha)
    obtain ⟨b, hb, heq⟩ := (hreads x hx).hasValue hvalue
    exact ⟨x, hx, (algebraMap K (AlgebraicClosure K)).injective heq ▸ hb⟩

end Field

/-! ## Real roots -/

section Complex

variable {I : Interpretation ℂ}

theorem HasValue.im_eq {x : Expr} {z : ℂ} (h : I.HasValue x z) : (I.eval x).im = z.im := by rw [h.2]

/-- A complex number with a rational square is real exactly if the square is not negative. -/
theorem im_eq_zero_iff {s : ℂ} {d : ℚ} (hs : s * s = algebraMap ℚ ℂ d) (hd : d ≠ 0) : s.im = 0 ↔ 0 < d := by
  rw [eq_ratCast] at hs
  have hre := congrArg Complex.re hs
  have him := congrArg Complex.im hs
  rw [Complex.mul_re, Complex.ratCast_re] at hre
  rw [Complex.mul_im, Complex.ratCast_im] at him
  have hd' : (d : ℝ) ≠ 0 := by exact_mod_cast hd
  constructor
  · intro h0
    rw [h0, mul_zero, sub_zero] at hre
    have hpos : 0 < (d : ℝ) := lt_of_le_of_ne (hre ▸ mul_self_nonneg _) hd'.symm
    exact_mod_cast hpos
  · intro hpos
    have hpos' : 0 < (d : ℝ) := by exact_mod_cast hpos
    rcases mul_eq_zero.1 (by linarith : s.re * s.im = 0) with h | h
    · rw [h] at hre
      nlinarith [mul_self_nonneg s.im]
    · exact h

variable (h : I.HasRoots) {q : RatPoly} {k : ℕ} (hq : q.degree? = some k) (hk : k ≤ 2)
  (hsign : k = 2 → SignKnown (discriminant (q.coeff 2) (q.coeff 1) (q.coeff 0)))

include h hq hk hsign in
/-- Without complex roots the residual keeps those with a real value. -/
theorem HasRoots.mem_residualRoots?_real {rest real : List Expr} (hrest : residualRoots? q true = some rest)
    (hreal : residualRoots? q false = some real) (x : Expr) : x ∈ real ↔ x ∈ rest ∧ (I.eval x).im = 0 := by
  have hall {xs : List Expr} (hxs : ∀ y ∈ xs, (I.eval y).im = 0) : x ∈ xs ↔ x ∈ xs ∧ (I.eval x).im = 0 :=
    ⟨fun hx => ⟨hx, hxs x hx⟩, And.left⟩
  have hrational {b a : ℚ} (ha : a ≠ 0) : (I.eval (rat b / rat a)).im = 0 := by
    rw [((hasValue_rat b).div_rat ha).im_eq, eq_ratCast, eq_ratCast, Complex.div_ratCast_im, Complex.ratCast_im, zero_div]
  simp only [residualRoots?, hq, RatPoly.coeff] at hrest hreal
  unfold RatPoly.coeff at hsign
  rcases RatPoly.coeffs_of_degree hq hk with ⟨c, hc, hcs, rfl⟩ | ⟨b, a, ha, hcs, rfl⟩ | ⟨c, b, a, ha, hcs, rfl⟩
  · obtain rfl := Option.some.inj hrest
    obtain rfl := Option.some.inj hreal
    simp
  · obtain rfl := Option.some.inj hrest
    obtain rfl := Option.some.inj hreal
    simp only [hcs, List.getD_cons_zero, List.getD_cons_succ, neg_rat]
    exact hall (by simpa using hrational ha)
  · obtain rfl := Option.some.inj hrest
    obtain rfl := Option.some.inj hreal
    simp only [hcs, List.getD_cons_zero, List.getD_cons_succ] at hsign ⊢
    have h2a : 2 * a ≠ 0 := mul_ne_zero two_ne_zero ha
    have hsign' := hsign trivial
    rw [quadraticRoots_rat hsign', quadraticRoots_rat hsign']
    by_cases hzero : discriminant a b c = 0
    · rw [if_pos hzero, if_pos hzero]
      exact hall (by simpa using hrational h2a)
    · obtain ⟨s, hs, y, z, hpair, hy, hz⟩ := h.rootPair (b := b) ha hzero
      have hval (t : ℂ) : ((-algebraMap ℚ ℂ b + t) / (2 * algebraMap ℚ ℂ a)).im = t.im / (2 * a : ℚ) := by
        have htwo : 2 * algebraMap ℚ ℂ a = ((2 * a : ℚ) : ℂ) := by rw [eq_ratCast, Rat.cast_mul, Rat.cast_ofNat]
        rw [htwo, Complex.div_ratCast_im, Complex.add_im, Complex.neg_im, eq_ratCast, Complex.ratCast_im, neg_zero, zero_add]
      have hy0 : (I.eval y).im = 0 ↔ 0 < discriminant a b c := by
        rw [hy.im_eq, sub_eq_add_neg, hval, ← im_eq_zero_iff hs hzero]
        simp [ha]
      have hz0 : (I.eval z).im = 0 ↔ 0 < discriminant a b c := by
        rw [hz.im_eq, hval, ← im_eq_zero_iff hs hzero]
        simp [ha]
      rw [if_neg hzero, if_neg hzero, hpair]
      by_cases hneg : discriminant a b c < 0
      · rw [if_pos (by simp [hneg]), if_neg (by simp)]
        have hno : ¬ 0 < discriminant a b c := hneg.not_gt
        simp only [List.not_mem_nil, List.mem_cons, or_false, false_iff, not_and]
        rintro (rfl | rfl)
        · exact fun h0 => hno (hy0.1 h0)
        · exact fun h0 => hno (hz0.1 h0)
      · rw [if_neg (by simp [hneg]), if_neg (by simp)]
        have hpos : 0 < discriminant a b c := lt_of_le_of_ne (not_lt.1 hneg) (Ne.symm hzero)
        exact hall (by simpa using ⟨hy0.2 hpos, hz0.2 hpos⟩)

end Complex

/-- The closed form of a polynomial whose residual is at most quadratic, with a discriminant of known sign. In every field
with the imaginary unit and the square roots that occur, the values of its members are exactly the roots; without complex
roots it keeps exactly the members with a real value. -/
theorem polynomialRoots?_exact.{u} {p : RatPoly} {n k : ℕ} (hp : p.degree? = some (n + 1))
    (hres : p.residual.degree? = some k) (hk : k ≤ 2)
    (hsign : k = 2 → SignKnown (discriminant (p.residual.coeff 2) (p.residual.coeff 1) (p.residual.coeff 0))) :
    ∃ sol real, polynomialRoots? p true = some sol ∧ polynomialRoots? p false = some real ∧
      (∀ (K : Type u) [Field K] [CharZero K] (I : Interpretation K), (∀ x ∈ sol, I.Reads x) →
        (∀ x ∈ sol, ∃ a, I.HasValue x a ∧ aeval a p.toPoly = 0) ∧
          ∀ a, aeval a p.toPoly = 0 → ∃ x ∈ sol, I.HasValue x a) ∧
      ∀ I : Interpretation ℂ, I.HasRoots → ∀ x, x ∈ real ↔ x ∈ sol ∧ (I.eval x).im = 0 := by
  obtain ⟨rest, hrest, hsol⟩ := polynomialRoots?_eq hres hk hp rfl true
  obtain ⟨rest', hrest', hreal⟩ := polynomialRoots?_eq hres hk hp rfl false
  refine ⟨_, _, hsol, hreal, fun K _ _ I hreads => ?_, fun I hI x => ?_⟩
  · obtain ⟨hsound, hcomplete⟩ := (I.hasRoots_closure.lists_roots hres hk hsign rfl hrest).of_closure hreads
    exact ⟨hsound, hcomplete⟩
  · have hmem := hI.mem_residualRoots?_real hres hk hsign hrest hrest' x
    rw [mem_sortRoots, mem_sortRoots, List.mem_append, List.mem_append, hmem, or_and_right]
    refine or_congr_left ⟨fun hx => ⟨hx, ?_⟩, And.left⟩
    obtain ⟨r, -, rfl⟩ := List.mem_map.1 hx
    rw [eval_rat, eq_ratCast, Complex.ratCast_im]

/-- The roots of `(x - 1)² (x² - 2)`. -/
theorem polynomialRoots?_exact_quartic :
    let p := RatPoly.ofList [-2, 4, -1, -2, 1]
    p.degree? = some 4 ∧ p.residual.degree? = some 2 ∧
      ∃ sol real, polynomialRoots? p true = some sol ∧ polynomialRoots? p false = some real ∧
        (∀ (K : Type) [Field K] [CharZero K] (I : Interpretation K), (∀ x ∈ sol, I.Reads x) →
          (∀ x ∈ sol, ∃ a, I.HasValue x a ∧ aeval a p.toPoly = 0) ∧
            ∀ a, aeval a p.toPoly = 0 → ∃ x ∈ sol, I.HasValue x a) ∧
        ∀ I : Interpretation ℂ, I.HasRoots → ∀ x, x ∈ real ↔ x ∈ sol ∧ (I.eval x).im = 0 := by
  have hp : (RatPoly.ofList [-2, 4, -1, -2, 1]).degree? = some 4 := by decide +kernel
  have hres : (RatPoly.ofList [-2, 4, -1, -2, 1]).residual.degree? = some 2 := by decide +kernel
  refine ⟨hp, hres, polynomialRoots?_exact hp hres le_rfl fun _ => ?_⟩
  unfold SignKnown
  decide +kernel

end Interpretation

end SymbolicSolver
