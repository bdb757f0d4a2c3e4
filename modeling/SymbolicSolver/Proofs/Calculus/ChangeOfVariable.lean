import Mathlib.Algebra.Polynomial.Roots
import SymbolicSolver.Proofs.Calculus.PartialFraction
import SymbolicSolver.Proofs.Calculus.Substitution
import SymbolicSolver.Proofs.Calculus.Variables

/-!
# Soundness of the change of variable

The polynomials whose zeros an antiderivative leaves out go along with the change of variable: an inner expression that
changes takes enough values to miss the zeros. So the rule leads from an antiderivative in the new variable to one in
the old, and the derivative of its answer has the value of the integrand wherever both have values, provided that the
new variable does not occur in the integrand.
-/

namespace SymbolicSolver

open TrivSqZeroExt (inl inr)
open scoped DualNumber
open MvPolynomial (aeval supported)

namespace Interpretation

open Expr

/-! ## Polynomials along one variable -/

section Along

variable {A : Type*} [CommRing A] [Algebra ℚ A]

/-- Points that agree on the variables of a polynomial give it the same value. -/
theorem aeval_congr {V : Set String} {P : MvPolynomial String ℚ} (hP : P ∈ supported ℚ V) {σ τ : String → A}
    (h : ∀ s ∈ V, σ s = τ s) : aeval σ P = aeval τ P := by
  induction hP using Algebra.adjoin_induction with
  | mem P hP =>
    obtain ⟨s, hs, rfl⟩ := hP
    rw [MvPolynomial.aeval_X, MvPolynomial.aeval_X, h s hs]
  | algebraMap q => rw [AlgHom.commutes, AlgHom.commutes]
  | add P Q _ _ hP hQ => rw [map_add, map_add, hP, hQ]
  | mul P Q _ _ hP hQ => rw [map_mul, map_mul, hP, hQ]

/-- A polynomial as one in a single variable, the others being held at a point. -/
noncomputable def along (τ : String → ℚ) (s : String) : MvPolynomial String ℚ →ₐ[ℚ] Polynomial ℚ :=
  aeval fun t => if t = s then .X else .C (τ t)

theorem aeval_along (τ : String → ℚ) (s : String) (a : A) (P : MvPolynomial String ℚ) :
    Polynomial.aeval a (along τ s P) = aeval (Function.update (fun t => algebraMap ℚ A (τ t)) s a) P := by
  have hcomp : (Polynomial.aeval a).comp (along τ s) =
      aeval (Function.update (fun t => algebraMap ℚ A (τ t)) s a) := by
    refine MvPolynomial.algHom_ext fun t => ?_
    rw [AlgHom.comp_apply, along, MvPolynomial.aeval_X, MvPolynomial.aeval_X]
    by_cases ht : t = s
    · subst ht
      simp
    · simp [ht]
  exact DFunLike.congr_fun hcomp P

theorem eval_along (τ : String → ℚ) (s : String) (a : ℚ) (P : MvPolynomial String ℚ) :
    (along τ s P).eval a = aeval (Function.update τ s a) P := by
  rw [← Polynomial.coe_aeval_eq_eval, aeval_along]
  rfl

end Along

/-! ## A quotient put in place of a variable -/

section Composition

variable {name fresh : String} {N M P Q : MvPolynomial String ℚ}

/-- The numerator of a polynomial with a quotient put in place of a variable. -/
theorem exists_numerator {V W : Set String} (hN : N ∈ supported ℚ W) (hM : M ∈ supported ℚ W)
    (hVW : ∀ s ∈ V, s ≠ fresh → s ∈ W) (hP : P ∈ supported ℚ V) :
    ∃ P' ∈ supported ℚ W, ∃ n : ℕ, ∀ σ : String → ℚ, aeval σ M ≠ 0 →
      aeval σ P' = aeval σ M ^ n * aeval (Function.update σ fresh (aeval σ N / aeval σ M)) P := by
  induction hP using Algebra.adjoin_induction with
  | mem P hP =>
    obtain ⟨s, hs, rfl⟩ := hP
    by_cases hfresh : s = fresh
    · subst hfresh
      refine ⟨N, hN, 1, fun σ hσ => ?_⟩
      rw [MvPolynomial.aeval_X, Function.update_self, pow_one, mul_div_cancel₀ _ hσ]
    · refine ⟨.X s, MvPolynomial.X_mem_supported.2 (hVW s hs hfresh), 0, fun σ _ => ?_⟩
      rw [MvPolynomial.aeval_X, MvPolynomial.aeval_X, Function.update_of_ne hfresh, pow_zero, one_mul]
  | algebraMap q =>
    refine ⟨algebraMap ℚ _ q, (supported ℚ W).algebraMap_mem q, 0, fun σ _ => ?_⟩
    rw [AlgHom.commutes, AlgHom.commutes, pow_zero, one_mul]
  | add P Q _ _ hP hQ =>
    obtain ⟨P', hP', m, hPv⟩ := hP
    obtain ⟨Q', hQ', n, hQv⟩ := hQ
    refine ⟨P' * M ^ n + Q' * M ^ m, add_mem (mul_mem hP' (pow_mem hM n)) (mul_mem hQ' (pow_mem hM m)), m + n,
      fun σ hσ => ?_⟩
    simp only [map_add, map_mul, map_pow, hPv σ hσ, hQv σ hσ, pow_add]
    ring
  | mul P Q _ _ hP hQ =>
    obtain ⟨P', hP', m, hPv⟩ := hP
    obtain ⟨Q', hQ', n, hQv⟩ := hQ
    refine ⟨P' * Q', mul_mem hP' hQ', m + n, fun σ hσ => ?_⟩
    simp only [map_mul, hPv σ hσ, hQv σ hσ, pow_add]
    ring

theorem exists_aeval_ne_zero (hP : P ≠ 0) : ∃ σ : String → ℚ, aeval σ P ≠ 0 := by
  by_contra! hall
  refine hP (MvPolynomial.funext fun σ => ?_)
  rw [map_zero, ← MvPolynomial.aeval_eq_eval]
  exact hall σ

/-- A quotient that changes along a variable at a point is not constant along it. -/
theorem along_sub_ne_zero {τ : String → ℚ} {z : ℚ} (hz : aeval (moved τ name) N ≠ inl z * aeval (moved τ name) M) :
    along τ name N - .C z * along τ name M ≠ 0 := by
  intro h0
  refine hz ?_
  have hpoint : Function.update (fun t => algebraMap ℚ ℚ[ε] (τ t)) name (inl (τ name) + DualNumber.eps) =
      moved τ name := by
    funext s
    by_cases hs : s = name
    · subst hs
      simp [moved]
    · rw [Function.update_of_ne hs, moved, if_neg hs, add_zero]
      rfl
  have hdual := congrArg (Polynomial.aeval (inl (τ name) + DualNumber.eps : ℚ[ε])) (sub_eq_zero.1 h0)
  rw [map_mul, aeval_along, aeval_along, Polynomial.aeval_C, hpoint] at hdual
  exact hdual

/-- A quotient that changes along a variable takes values that are no zeros of a given polynomial without that
variable. -/
theorem exists_composed_ne_zero (hne : name ≠ fresh) (hPname : P ∈ supported ℚ {s | s ≠ name}) (hP : P ≠ 0) (hM : M ≠ 0)
    (hQ : Q ≠ 0) (hchange : ∀ (τ : String → ℚ) (z : ℚ), aeval τ M ≠ 0 → aeval τ Q ≠ 0 →
      aeval (moved τ name) N ≠ inl z * aeval (moved τ name) M) :
    ∃ σ : String → ℚ, aeval σ M ≠ 0 ∧ aeval σ Q ≠ 0 ∧
      aeval (Function.update σ fresh (aeval σ N / aeval σ M)) P ≠ 0 := by
  obtain ⟨τ, hτ⟩ := exists_aeval_ne_zero (mul_ne_zero hP (mul_ne_zero hM hQ))
  rw [map_mul, map_mul] at hτ
  have hPτ := left_ne_zero_of_mul hτ
  have hMτ := left_ne_zero_of_mul (right_ne_zero_of_mul hτ)
  have hQτ := right_ne_zero_of_mul (right_ne_zero_of_mul hτ)
  have hself (s : String) (R : MvPolynomial String ℚ) : (along τ s R).eval (τ s) = aeval τ R := by
    rw [eval_along, Function.update_eq_self]
  have halong (s : String) {R : MvPolynomial String ℚ} (hR : aeval τ R ≠ 0) : along τ s R ≠ 0 := by
    intro h0
    rw [← hself s R, h0, Polynomial.eval_zero] at hR
    exact hR rfl
  -- The values of the quotient that have to be avoided.
  let zeros := (along τ fresh P).roots
  let avoid := (zeros.map fun z => along τ name N - .C z * along τ name M).prod
  have havoid : avoid ≠ 0 := by
    refine Multiset.prod_ne_zero fun h0 => ?_
    obtain ⟨z, -, hz⟩ := Multiset.mem_map.1 h0
    exact along_sub_ne_zero (hchange τ z hMτ hQτ) hz
  obtain ⟨t, ht⟩ : ∃ t, (avoid * (along τ name M * along τ name Q)).eval t ≠ 0 := by
    by_contra! hall
    refine mul_ne_zero havoid (mul_ne_zero (halong name hMτ) (halong name hQτ)) (Polynomial.funext fun t => ?_)
    rw [hall t, Polynomial.eval_zero]
  rw [Polynomial.eval_mul, Polynomial.eval_mul] at ht
  have hMt := left_ne_zero_of_mul (right_ne_zero_of_mul ht)
  have hQt := right_ne_zero_of_mul (right_ne_zero_of_mul ht)
  have hroots := left_ne_zero_of_mul ht
  rw [eval_along] at hMt hQt
  refine ⟨Function.update τ name t, hMt, hQt, fun h0 => hroots ?_⟩
  have hsame : aeval (Function.update (Function.update τ name t) fresh
      (aeval (Function.update τ name t) N / aeval (Function.update τ name t) M)) P =
      (along τ fresh P).eval (aeval (Function.update τ name t) N / aeval (Function.update τ name t) M) := by
    rw [eval_along, Function.update_comm hne]
    exact aeval_congr hPname fun s hs => Function.update_of_ne hs _ _
  rw [hsame] at h0
  rw [Polynomial.eval_multiset_prod]
  refine Multiset.prod_eq_zero (Multiset.mem_map.2 ⟨_, Multiset.mem_map.2 ⟨_,
    (Polynomial.mem_roots (halong fresh hPτ)).2 h0, rfl⟩, ?_⟩)
  rw [Polynomial.eval_sub, Polynomial.eval_mul, Polynomial.eval_C, eval_along, eval_along, div_mul_cancel₀ _ hMt,
    sub_self]

end Composition

/-! ## The rule -/

/-- Whether an inner expression changes along a variable anywhere. -/
def Changes (name : String) (u : Expr) : Prop :=
  ∃ ρ : String → ℚ, (point ρ).Defined u ∧ valueAt ρ (derivative name u) ≠ 0

section Rule

variable {x u g p : Expr} {name fresh : String}

/-- At a point where a quotient has a value, and its derivative one that is not zero, the quotient changes. -/
theorem IsQuotient.changes {q : String → Prop} {N M : MvPolynomial String ℚ} (h : IsQuotient False q u N M)
    {τ : String → ℚ} (hM : aeval τ M ≠ 0) (hne : valueAt τ (derivative name u) ≠ 0) (z : ℚ) :
    aeval (moved τ name) N ≠ inl z * aeval (moved τ name) M := by
  intro heq
  have hfst : (aeval (moved τ name) M).fst = aeval τ M := by
    have hhom : (TrivSqZeroExt.fstHom ℚ ℚ ℚ).comp (aeval (moved τ name)) = aeval τ :=
      MvPolynomial.algHom_ext fun s => by simp
    exact DFunLike.congr_fun hhom M
  have hunit : IsUnit (aeval (moved τ name) M) := isUnit_dual_iff.2 (hfst ▸ hM)
  obtain ⟨v, ⟨hdv, rfl⟩, hv⟩ := h.value ℚ[ε] (moved τ name) hunit
  obtain ⟨w, ⟨hdw, -⟩, -⟩ := h.value ℚ τ hM.isUnit
  have hz := hunit.mul_right_cancel (hv.trans heq)
  have hsnd := (derivative_eq_snd τ name (x := u) hdw).2.2
  refine hne (hsnd.trans ?_)
  exact (congrArg TrivSqZeroExt.snd hz).trans (TrivSqZeroExt.snd_inl ℚ z)

/-- An inner expression that changes is a quotient, and off the zeros of a polynomial its derivative does not vanish. -/
theorem Changes.exists_quotient {q : String → Prop} (h : Changes name u) (hu : VarsIn q u) :
    ∃ N M Q, IsQuotient False q u N M ∧ Q ∈ supported ℚ {s | q s} ∧ M ≠ 0 ∧ Q ≠ 0 ∧
      ∀ τ : String → ℚ, aeval τ Q ≠ 0 → valueAt τ (derivative name u) ≠ 0 := by
  obtain ⟨σ, hσ, hne⟩ := h
  obtain ⟨N, M, hquot, hM⟩ := exists_isQuotient (l := False) u hu hσ
  have hdu : DefinedAt σ (derivative name u) := (derivative_eq_snd σ name hσ).2.1
  obtain ⟨N', M', hquot', hM'⟩ :=
    exists_isQuotient _ (closed_varsIn.derivative hu) (hasValue_lenient hdu).1
  have hvalue {τ : String → ℚ} (hτ : aeval τ M' ≠ 0) :
      valueAt τ (derivative name u) * aeval τ M' = aeval τ N' := by
    obtain ⟨v, hv, heq⟩ := hquot'.value ℚ τ hτ.isUnit
    rwa [hv.definedAt.2]
  refine ⟨N, M, N' * M', hquot, mul_mem hquot'.num_mem hquot'.den_mem, ne_zero_of_aeval hM,
    ne_zero_of_aeval (σ := σ) ?_, fun τ hτ h0 => ?_⟩
  · rw [map_mul, ← hvalue hM']
    exact mul_ne_zero (mul_ne_zero hne hM') hM'
  · rw [map_mul] at hτ
    rw [← hvalue (right_ne_zero_of_mul hτ), h0, zero_mul, zero_mul] at hτ
    exact hτ rfl

/-- A variable that does not occur may have any value. -/
theorem valueAt_update {ρ : String → ℚ} {y : Expr} (hd : DefinedAt ρ y) (hy : VarsIn (· ≠ fresh) y) (c : ℚ) :
    DefinedAt (Function.update ρ fresh c) y ∧ valueAt (Function.update ρ fresh c) y = valueAt ρ y := by
  obtain ⟨hiff, hv⟩ := (plain_of_definedAt y hd hy).reading (r := .ofVars (Function.update ρ fresh c)) (s := .ofVars ρ)
    fun s hs => Function.update_of_ne hs _ _
  exact ⟨hiff.2 hd, hv⟩

/-- The change of variable at a point where the derivative of the inner expression does not vanish. -/
theorem hasChange_subst_at {K : Type} [Field K] [CharZero K] {k : Interpretation K} {D : Interpretation K[ε]}
    {ρ : String → ℚ} (h : Elementary k D name) (hk : ∀ s, k.ofVar s = algebraMap ℚ K (ρ s))
    (hg : inTermsOf? x u name fresh = some g) (hurat : ∀ q, u ≠ rat q) (hxfresh : VarsIn (· ≠ fresh) x)
    (hufresh : VarsIn (· ≠ fresh) u) (hpname : VarsIn (· ≠ name) p) (hx : DefinedAt ρ x) (hu : (point ρ).Defined u)
    (hne : valueAt ρ (derivative name u) ≠ 0)
    (hp : ∀ (k' : Interpretation K) (D' : Interpretation K[ε]), Elementary k' D' fresh →
      (∀ s, k'.ofVar s = algebraMap ℚ K (Function.update ρ fresh (valueAt ρ u) s)) →
      DefinedAt (Function.update ρ fresh (valueAt ρ u)) g →
      D'.HasChange p (algebraMap ℚ K (valueAt (Function.update ρ fresh (valueAt ρ u)) g))) :
    D.HasChange (p.subst fresh u) (algebraMap ℚ K (valueAt ρ x)) := by
  obtain ⟨d, hud, hfst, hsnd⟩ := h.toTangent.hasValue_kernel hk hu
  have hd : d.snd ≠ 0 := by
    rw [hsnd]
    exact (map_ne_zero _).2 hne
  have hdu : DefinedAt ρ (derivative name u) := (derivative_eq_snd ρ name hu).2.1
  obtain ⟨-, hvu⟩ := valueAt_update hu.definedAt.1 hufresh (valueAt ρ u)
  obtain ⟨hx', hvx⟩ := valueAt_update hx hxfresh (valueAt ρ u)
  obtain ⟨hdu', hvdu⟩ := valueAt_update hdu (closed_varsIn.derivative hufresh) (valueAt ρ u)
  obtain ⟨hgd, hvg⟩ := inTermsOf?_value hg hurat ((Function.update_self _ _ _).trans hvu.symm) hx' hdu' (hvdu ▸ hne)
  have hinner := hp _ _ (h.inner fresh u d.fst) (fun s => by
    change Function.update k.ofVar fresh d.fst s = _
    by_cases hs : s = fresh
    · subst hs
      rw [Function.update_self, Function.update_self, hfst]
    · rw [Function.update_of_ne hs, Function.update_of_ne hs, hk]) hgd
  have hsubst := hinner.subst h hud hd hpname
  rw [hsnd, hvg, hvx, hvdu, ← map_mul, mul_div_cancel₀ _ hne] at hsubst
  exact hsubst

/-- Putting the inner expression in place of the new variable makes an antiderivative of what the integrand becomes one
of the integrand. -/
theorem Antiderivative.subst (hp : Antiderivative fresh g p) (hpname : p.hasVar name = false)
    (hg : inTermsOf? x u name fresh = some g) (hu : u ∈ innerExprs x name) (hfresh : x.hasVar fresh = false)
    (hchanges : Changes name u) : Antiderivative name x (p.subst fresh u) := by
  by_cases hx : ∃ ρ : String → ℚ, DefinedAt ρ x
  swap
  · exact ⟨1, one_mem _, one_ne_zero, fun _ _ _ _ _ ρ _ _ _ hxρ => (hx ⟨ρ, hxρ⟩).elim⟩
  obtain ⟨ρ₀, hx₀⟩ := hx
  obtain ⟨hsub, huname⟩ := mem_innerExprs hu
  have huvars : VarsIn (fun s => x.hasVar s = true) u := (varsIn_hasVar x).subtree u hsub
  have hfreshvar {s : String} (hs : x.hasVar s = true) : s ≠ fresh := by
    rintro rfl
    rw [hfresh] at hs
    cases hs
  have hname : name ≠ fresh := hfreshvar (varsIn_iff.1 huvars name huname)
  obtain ⟨N, M, Q, hquot, hQmem, hM, hQ, hne⟩ := hchanges.exists_quotient huvars
  obtain ⟨P, hPmem, hP, hchange⟩ := hp
  have hPname : P ∈ supported ℚ {s | s ≠ name} := by
    refine MvPolynomial.supported_mono (fun s hs => ?_) hPmem
    rintro rfl
    rcases hs with hs | hs
    · exact hname hs
    · rw [(inTermsOf?_cases hg).1] at hs
      cases hs
  obtain ⟨τ, hMτ, hQτ, hPτ⟩ := exists_composed_ne_zero (N := N) hname hPname hP hM hQ
    fun τ z hMτ hQτ => hquot.changes hMτ (hne τ hQτ) z
  -- What the zeros to leave out become: the numerator of the composition, and the poles and zeros of the derivative.
  have hgvars := varsIn_iff.1 (varsIn_inTermsOf? (varsIn_hasVar x) huvars hg)
  have hold : ∀ s ∈ {s | s = fresh ∨ g.hasVar s = true}, s ≠ fresh → s ∈ {s | x.hasVar s = true} :=
    fun s hs hne => (hgvars s (hs.resolve_left hne)).resolve_left hne
  obtain ⟨P', hP'mem, n, hnum⟩ := exists_numerator hquot.num_mem hquot.den_mem hold hPmem
  refine ⟨P' * (M * Q), MvPolynomial.supported_mono (fun s hs => .inr hs)
    (mul_mem hP'mem (mul_mem hquot.den_mem hQmem)), ?_, fun K _ _ k D ρ h hk hρ hx => ?_⟩
  · refine ne_zero_of_aeval (σ := τ) ?_
    rw [map_mul, map_mul, hnum τ hMτ]
    exact mul_ne_zero (mul_ne_zero (pow_ne_zero n hMτ) hPτ) (mul_ne_zero hMτ hQτ)
  · rw [map_mul, map_mul] at hρ
    have hMρ := left_ne_zero_of_mul (right_ne_zero_of_mul hρ)
    have hPρ := left_ne_zero_of_mul hρ
    rw [hnum ρ hMρ] at hPρ
    obtain ⟨v, ⟨hdv, rfl⟩, hv⟩ := hquot.value ℚ ρ hMρ.isUnit
    have hu : (point ρ).Defined u := hdv
    have hvu : valueAt ρ u = aeval ρ N / aeval ρ M := by
      rw [eq_div_iff hMρ, ← hv, hu.definedAt.2]
      rfl
    refine hasChange_subst_at h hk hg ?_ ((varsIn_ne_iff fresh x).2 hfresh) (huvars.mono fun s hs => hfreshvar hs)
      ((varsIn_ne_iff name p).2 hpname) hx hu (hne ρ (right_ne_zero_of_mul (right_ne_zero_of_mul hρ)))
      fun k' D' h' hk' hgd => ?_
    · rintro q rfl
      cases huname
    · exact hchange K k' D' _ h' hk' (by rw [hvu]; exact right_ne_zero_of_mul hPρ) hgd

/-! ## Powers of the new variable -/

end Rule

end Interpretation

end SymbolicSolver
