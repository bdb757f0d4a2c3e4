import Mathlib.Order.Filter.Cofinite
import Mathlib.Topology.Instances.Real.Lemmas
import SymbolicSolver.Proofs.Calculus.Derivative
import SymbolicSolver.Proofs.Calculus.LeadingTerm
import SymbolicSolver.Proofs.Calculus.Variables
import SymbolicSolver.Proofs.Interpretation.Quotient
import SymbolicSolver.Proofs.Polynomial.RationalFunction
import SymbolicSolver.Proofs.Simplify.Forms

/-!
# Rational expressions to the right of a point

A rational expression in one variable is a quotient of polynomials, in every ring and away from finitely many points. So
an equation that holds at all rationals but finitely many holds at the reals close to a point, and just to the right of
it an expression that is not zero everywhere has a leading term.
-/

namespace SymbolicSolver

open Filter Topology
open Polynomial (aeval)

namespace Expr

open Interpretation (point pointAs IsQuotient)

variable {name : String} {x y : Expr}

/-! ## Quotients of polynomials -/

/-- A rational expression in one variable, with a value somewhere. -/
structure RationalIn (name : String) (x : Expr) : Prop where
  vars : VarsIn (· = name) x
  defined : ∃ b : ℚ, (point fun _ => b).Defined x

/-- Off the zeros of `d` the values of an expression in one variable are `n / d`, in every ring. -/
def IsFormula (l : Prop) (name : String) (x : Expr) (n d : Polynomial ℚ) : Prop :=
  ∀ (A : Type) [CommRing A] [Algebra ℚ A] (ρ : String → A), IsUnit (aeval (ρ name) d) →
    ∃ v, (pointAs l ρ).HasValue x v ∧ v * aeval (ρ name) d = aeval (ρ name) n

theorem aeval_of_supported {P : MvPolynomial String ℚ} (hP : P ∈ MvPolynomial.supported ℚ {s | s = name})
    {A : Type} [CommRing A] [Algebra ℚ A] (ρ : String → A) :
    aeval (ρ name) (MvPolynomial.aeval (fun _ => Polynomial.X) P : Polynomial ℚ) = MvPolynomial.aeval ρ P := by
  have hle : MvPolynomial.supported ℚ {s | s = name} ≤
      AlgHom.equalizer ((aeval (ρ name)).comp (MvPolynomial.aeval fun _ => (Polynomial.X : Polynomial ℚ)))
        (MvPolynomial.aeval ρ) := by
    refine Algebra.adjoin_le ?_
    rintro _ ⟨s, rfl, rfl⟩
    simp
  exact hle hP

/-- An expression with a value is a quotient of polynomials whose denominator does not vanish there. -/
theorem exists_isFormula {l : Prop} {b : ℚ} (hx : VarsIn (· = name) x) (hd : (pointAs l fun _ => b).Defined x) :
    ∃ n d, IsFormula l name x n d ∧ d.eval b ≠ 0 := by
  obtain ⟨N, M, hquot, hM⟩ := Interpretation.exists_isQuotient x hx hd
  refine ⟨MvPolynomial.aeval (fun _ => Polynomial.X) N, MvPolynomial.aeval (fun _ => Polynomial.X) M,
    fun A _ _ ρ hu => ?_, ?_⟩
  · rw [aeval_of_supported hquot.den_mem] at hu ⊢
    rw [aeval_of_supported hquot.num_mem]
    exact hquot.value A ρ hu
  · have hvalue := aeval_of_supported hquot.den_mem fun _ => b
    rw [Polynomial.coe_aeval_eq_eval] at hvalue
    rwa [hvalue]

/-- Where zero to the power zero has no value the values are the same as where it has one. -/
theorem IsFormula.lenient {n d : Polynomial ℚ} (h : IsFormula False name x n d) : IsFormula True name x n d := by
  intro A _ _ ρ hu
  obtain ⟨v, ⟨hd, rfl⟩, hv⟩ := h A ρ hu
  have hhom : Interpretation.Hom (fun _ => True) (pointAs False ρ) (pointAs True ρ) (RingHom.id A) :=
    ⟨fun _ _ => rfl, fun _ _ _ _ h => h, fun _ _ h => h, fun _ h => h, fun h => h.elim⟩
  exact ⟨_, hhom.hasValue x (varsIn_true x) hd, hv⟩

theorem IsFormula.at_rat {n d : Polynomial ℚ} (h : IsFormula True name x n d) {b : ℚ} (hb : d.eval b ≠ 0) :
    DefinedAt (fun _ => b) x ∧ valueAt (fun _ => b) x = n.eval b / d.eval b := by
  obtain ⟨v, hv, heq⟩ := h ℚ (fun _ => b) (by simpa using hb)
  obtain ⟨hd, rfl⟩ := hv.definedAt
  exact ⟨hd, (eq_div_iff hb).2 (by simpa using heq)⟩

/-! ## Rational points -/

theorem eventually_eval_ne_zero {p : Polynomial ℚ} (hp : p ≠ 0) : ∀ᶠ b in cofinite, p.eval b ≠ 0 :=
  (Polynomial.finite_setOfPred_isRoot hp).subset fun _ hb => not_not.1 hb

namespace RationalIn

/-- The quotient of polynomials that an expression in one variable is. -/
theorem exists_formula (hx : RationalIn name x) : ∃ n d, d ≠ 0 ∧ IsFormula False name x n d := by
  obtain ⟨b, hb⟩ := hx.defined
  obtain ⟨n, d, hform, hd⟩ := exists_isFormula hx.vars (l := False) hb
  refine ⟨n, d, ?_, hform⟩
  rintro rfl
  simp at hd

theorem eventually_defined (hx : RationalIn name x) : ∀ᶠ b : ℚ in cofinite, (point fun _ => b).Defined x := by
  obtain ⟨n, d, hd, hform⟩ := hx.exists_formula
  filter_upwards [eventually_eval_ne_zero hd] with b hb
  obtain ⟨v, hv, -⟩ := hform ℚ (fun _ => b) (by simpa using hb)
  exact hv.1

theorem eventually_definedAt (hx : RationalIn name x) : ∀ᶠ b : ℚ in cofinite, DefinedAt (fun _ => b) x :=
  hx.eventually_defined.mono fun _ hb => hb.definedAt.1

/-- An expression that is built has a value without powers of zero wherever it has a value at all. -/
theorem of_built (hx : VarsIn (· = name) x) (hbuilt : Built x) {b : ℚ} (hd : DefinedAt (fun _ => b) x) :
    RationalIn name x := by
  rcases hbuilt.canonical with rfl | hcanonical
  · exact hd.elim
  · exact ⟨hx, b, Interpretation.defined_of_canonical hcanonical hd⟩

theorem plain (hx : RationalIn name x) : Plain (· = name) x := by
  obtain ⟨b, hb⟩ := hx.defined
  exact plain_of_definedAt x hb.definedAt.1 hx.vars

theorem term {ts : List Expr} (hx : RationalIn name (.add ts)) : ∀ t ∈ ts, RationalIn name t := by
  obtain ⟨b, hb⟩ := hx.defined
  exact fun t ht => ⟨(hereditary_varsIn.add ts).1 hx.vars t ht, b, (Interpretation.defined_add ts).1 hb t ht⟩

theorem factor {fs : List Expr} (hx : RationalIn name (.mul fs)) : ∀ f ∈ fs, RationalIn name f := by
  obtain ⟨b, hb⟩ := hx.defined
  exact fun f hf => ⟨(hereditary_varsIn.mul fs).1 hx.vars f hf, b, (Interpretation.defined_mul fs).1 hb f hf⟩

end RationalIn

/-- Whether an expression in one variable has a value other than zero somewhere. -/
def NotZero (x : Expr) : Prop := ∃ b : ℚ, DefinedAt (fun _ => b) x ∧ valueAt (fun _ => b) x ≠ 0

theorem valueAt_eq_zero (h : ¬ NotZero x) {b : ℚ} (hb : DefinedAt (fun _ => b) x) : valueAt (fun _ => b) x = 0 :=
  not_not.1 fun hne => h ⟨b, hb, hne⟩

/-! ## Real points -/

/-- The value at a real. -/
noncomputable def realAt (x : Expr) (t : ℝ) : ℝ := (pointAs True fun _ => t).eval x

theorem realAt_add (ts : List Expr) (t : ℝ) : (add ts).realAt t = (ts.map (realAt · t)).sum :=
  Interpretation.eval_add ts

theorem realAt_mul (fs : List Expr) (t : ℝ) : (mul fs).realAt t = (fs.map (realAt · t)).prod :=
  Interpretation.eval_mul fs

theorem IsFormula.at_real {n d : Polynomial ℚ} (h : IsFormula True name x n d) {t : ℝ} (ht : aeval t d ≠ 0) :
    (pointAs True fun _ => t).Defined x ∧ x.realAt t = aeval t n / aeval t d := by
  obtain ⟨v, ⟨hd, rfl⟩, heq⟩ := h ℝ (fun _ => t) ht.isUnit
  exact ⟨hd, (eq_div_iff ht).2 heq⟩

theorem eventually_aeval_ne_zero {p : Polynomial ℚ} (hp : p ≠ 0) (a : ℚ) :
    ∀ᶠ t in 𝓝[>] (a : ℝ), aeval t p ≠ 0 := by
  obtain ⟨m, c, hlead, -⟩ := hasLead_aeval ℝ a hp
  exact hlead.eventually_ne

namespace RationalIn

theorem eventually_defined_real (hx : RationalIn name x) (a : ℚ) :
    ∀ᶠ t in 𝓝[>] (a : ℝ), (pointAs True fun _ => t).Defined x := by
  obtain ⟨n, d, hd, hform⟩ := hx.exists_formula
  filter_upwards [eventually_aeval_ne_zero hd a] with t ht
  exact (hform.lenient.at_real ht).1

/-- A quotient of polynomials that gives the values at all rationals but finitely many gives those at the reals close to
a point. -/
theorem eventually_eq_div (hx : RationalIn name x) {p q : Polynomial ℚ} (hq : q ≠ 0)
    (h : ∀ᶠ b in cofinite, valueAt (fun _ => b) x = p.eval b / q.eval b) (a : ℚ) :
    ∀ᶠ t in 𝓝[>] (a : ℝ), x.realAt t = aeval t p / aeval t q := by
  obtain ⟨n, d, hd, hform⟩ := hx.exists_formula
  have hcross : n * q = p * d := by
    refine Polynomial.eq_of_infinite_eval_eq _ _ (Set.Infinite.mono (fun b hb => ?_)
      (Filter.frequently_cofinite_iff_infinite.1 (h.and ((eventually_eval_ne_zero hd).and
        (eventually_eval_ne_zero hq))).frequently))
    obtain ⟨hb, hdb, hqb⟩ := hb
    rw [(hform.lenient.at_rat hdb).2, div_eq_div_iff hdb hqb] at hb
    simpa using hb
  filter_upwards [eventually_aeval_ne_zero hd a, eventually_aeval_ne_zero hq a] with t hdt hqt
  rw [(hform.lenient.at_real hdt).2, div_eq_div_iff hdt hqt, ← map_mul, hcross, map_mul]

theorem eventually_ne_zero (hx : RationalIn name x) (h : NotZero x) :
    ∀ᶠ b : ℚ in cofinite, valueAt (fun _ => b) x ≠ 0 := by
  obtain ⟨b, hd, hne⟩ := h
  obtain ⟨n, d, hform, hdb⟩ := exists_isFormula hx.vars (Interpretation.hasValue_lenient hd).1
  have hnb : n.eval b ≠ 0 := by
    rw [(hform.at_rat hdb).2] at hne
    exact (div_ne_zero_iff.1 hne).1
  have hprod : n * d ≠ 0 := fun h0 => mul_ne_zero hnb hdb (by rw [← Polynomial.eval_mul, h0, Polynomial.eval_zero])
  filter_upwards [eventually_eval_ne_zero hprod] with c hc
  rw [Polynomial.eval_mul, mul_ne_zero_iff] at hc
  rw [(hform.at_rat hc.2).2]
  exact div_ne_zero hc.1 hc.2

/-- The values close to a point are zero if those at rationals are. -/
theorem eventually_eq_zero (hx : RationalIn name x) (h : ¬ NotZero x) (a : ℚ) :
    ∀ᶠ t in 𝓝[>] (a : ℝ), x.realAt t = 0 := by
  have hzero := hx.eventually_eq_div (p := 0) (q := 1) one_ne_zero
    (hx.eventually_definedAt.mono fun b hb => by simp [valueAt_eq_zero h hb]) a
  simpa using hzero

end RationalIn

/-- What makes an expression in one variable the quotient of two others. -/
structure QuotientOf (name : String) (x n d : Expr) : Prop where
  whole : RationalIn name x
  num : RationalIn name n
  den : RationalIn name d
  den_notZero : NotZero d
  value : ∀ᶠ b : ℚ in cofinite, valueAt (fun _ => b) x * valueAt (fun _ => b) d = valueAt (fun _ => b) n

theorem QuotientOf.eventually_eq {n d : Expr} (h : QuotientOf name x n d) (a : ℚ) :
    ∀ᶠ t in 𝓝[>] (a : ℝ), x.realAt t = n.realAt t / d.realAt t := by
  obtain ⟨n₁, n₂, hn₂, hnform⟩ := h.num.exists_formula
  obtain ⟨d₁, d₂, hd₂, hdform⟩ := h.den.exists_formula
  have hd₁ : d₁ ≠ 0 := by
    rintro rfl
    obtain ⟨b, hb, hb₂⟩ := ((h.den.eventually_ne_zero h.den_notZero).and (eventually_eval_ne_zero hd₂)).exists
    exact hb (by simp [(hdform.lenient.at_rat hb₂).2])
  have hrat : ∀ᶠ b in cofinite, valueAt (fun _ => b) x = (n₁ * d₂).eval b / (n₂ * d₁).eval b := by
    filter_upwards [h.value, eventually_eval_ne_zero hn₂, eventually_eval_ne_zero hd₂, eventually_eval_ne_zero hd₁]
      with b hb hnb hdb hdb'
    rw [(hnform.lenient.at_rat hnb).2, (hdform.lenient.at_rat hdb).2] at hb
    rw [Polynomial.eval_mul, Polynomial.eval_mul, ← div_div_div_eq, ← hb,
      mul_div_cancel_right₀ _ (div_ne_zero hdb' hdb)]
  filter_upwards [h.whole.eventually_eq_div (mul_ne_zero hn₂ hd₁) hrat a, eventually_aeval_ne_zero hn₂ a,
    eventually_aeval_ne_zero hd₂ a] with t ht hnt hdt
  rw [ht, (hnform.lenient.at_real hnt).2, (hdform.lenient.at_real hdt).2, map_mul, map_mul, div_div_div_eq]

/-! ## Derivatives -/

open TrivSqZeroExt (inl)
open scoped DualNumber

theorem aeval_moved (p : Polynomial ℚ) (b : ℚ) : aeval (Interpretation.moved (fun _ => b) name name) p =
    inl (p.eval b) + inl (p.derivative.eval b) * (DualNumber.eps : ℚ[ε]) := by
  have hmoved : Interpretation.moved (fun _ => b) name name = inl b + (DualNumber.eps : ℚ[ε]) := by
    rw [Interpretation.moved, if_pos rfl]
  have hbase (q : Polynomial ℚ) : aeval (inl b : ℚ[ε]) q = inl (q.eval b) :=
    Polynomial.aeval_algebraMap_apply_eq_algebraMap_eval b q
  rw [hmoved, Polynomial.aeval_add_of_sq_eq_zero _ _ _ (by rw [sq, DualNumber.eps_mul_eps]), hbase, hbase]

/-- The derivative of a quotient of polynomials. -/
theorem IsFormula.valueAt_derivative {n d : Polynomial ℚ} (h : IsFormula False name x n d) {b : ℚ} (hb : d.eval b ≠ 0) :
    valueAt (fun _ => b) (Expr.derivative name x) =
      (n.derivative * d - n * d.derivative).eval b / (d ^ 2).eval b := by
  obtain ⟨v, hv, -⟩ := h ℚ (fun _ => b) (by simpa using hb)
  obtain ⟨-, -, hderiv⟩ := Interpretation.derivative_eq_snd (fun _ => b) name hv.1
  obtain ⟨w, ⟨-, hw⟩, heq⟩ := h ℚ[ε] (Interpretation.moved (fun _ => b) name) (by
    rw [isUnit_dual_iff, aeval_moved]
    simpa using hb)
  have hw' : (point (Interpretation.moved (fun _ => b) name)).eval x = w := hw
  rw [aeval_moved, aeval_moved] at heq
  have hfst : w.fst * d.eval b = n.eval b := by simpa using congrArg TrivSqZeroExt.fst heq
  have hsnd : w.fst * d.derivative.eval b + w.snd * d.eval b = n.derivative.eval b := by
    simpa using congrArg TrivSqZeroExt.snd heq
  rw [hderiv, hw', eq_div_iff (by simpa using hb)]
  simp only [Polynomial.eval_sub, Polynomial.eval_mul, Polynomial.eval_pow, ← hfst, ← hsnd]
  ring

namespace RationalIn

theorem derivative (hx : RationalIn name x) : RationalIn name (Expr.derivative name x) := by
  obtain ⟨b, hb⟩ := hx.defined
  exact ⟨closed_varsIn.derivative hx.vars, b, ((Interpretation.tangent_point _ name).hasValue_derivative x
    (Interpretation.defined_moved _ name x hb)).1⟩

/-- Just to the right of a point an expression that is not zero everywhere has a leading term, and its exponent is the
limit of the logarithmic derivative times the distance. -/
theorem exists_lead (hx : RationalIn name x) (hne : NotZero x) (a : ℚ) : ∃ (m : ℤ) (c : ℚ),
    HasLead x.realAt a m (algebraMap ℚ ℝ c) ∧
      Tendsto (fun t => (t - a) * (Expr.derivative name x).realAt t / x.realAt t) (𝓝[>] (a : ℝ)) (𝓝 (m : ℝ)) := by
  obtain ⟨n, d, hd, hform⟩ := hx.exists_formula
  have hn : n ≠ 0 := by
    rintro rfl
    obtain ⟨b, hb, hdb⟩ := ((hx.eventually_ne_zero hne).and (eventually_eval_ne_zero hd)).exists
    exact hb (by simp [(hform.lenient.at_rat hdb).2])
  obtain ⟨m, c, hlead, hlog⟩ := hasLead_quotient ℝ a hn hd
  have hvalue : x.realAt =ᶠ[𝓝[>] (a : ℝ)] fun t => aeval t n / aeval t d :=
    (eventually_aeval_ne_zero hd a).mono fun t ht => (hform.lenient.at_real ht).2
  have hderiv := hx.derivative.eventually_eq_div (pow_ne_zero 2 hd)
    ((eventually_eval_ne_zero hd).mono fun b hb => hform.valueAt_derivative hb) a
  refine ⟨m, c, hlead.congr hvalue.symm, hlog.congr' ?_⟩
  filter_upwards [hvalue, hderiv] with t ht hdt
  rw [ht, hdt]
  simp

theorem notZero (hx : RationalIn name x) (h : ∀ᶠ b : ℚ in cofinite, valueAt (fun _ => b) x ≠ 0) : NotZero x :=
  (hx.eventually_definedAt.and h).exists

theorem inverse (hx : RationalIn name x) (hx0 : NotZero x) : RationalIn name x.inverse ∧ NotZero x.inverse ∧
    ∀ᶠ b : ℚ in cofinite, valueAt (fun _ => b) x.inverse * valueAt (fun _ => b) x = 1 := by
  have hvalue {b : ℚ} (hxb : (point fun _ => b).Defined x) (hne : valueAt (fun _ => b) x ≠ 0) :
      (point fun _ => b).HasValue x.inverse (valueAt (fun _ => b) x)⁻¹ := by
    rw [← Ring.inverse_eq_inv', hxb.definedAt.2] at *
    exact hxb.hasValue.inverse hne.isUnit
  have hgeneric := hx.eventually_defined.and (hx.eventually_ne_zero hx0)
  have hone : ∀ᶠ b : ℚ in cofinite, valueAt (fun _ => b) x.inverse * valueAt (fun _ => b) x = 1 := by
    filter_upwards [hgeneric] with b hb
    obtain ⟨hd, hv⟩ := hvalue hb.1 hb.2
    rw [hd.definedAt.2.trans hv, inv_mul_cancel₀ hb.2]
  obtain ⟨b, hxb, hne⟩ := hgeneric.exists
  have hinv : RationalIn name x.inverse := ⟨hereditary_varsIn.power hx.vars trivial, b, (hvalue hxb hne).1⟩
  exact ⟨hinv, hinv.notZero (hone.mono fun c hc => left_ne_zero_of_mul_eq_one hc), hone⟩

theorem product {fs : List Expr} (h : ∀ f ∈ fs, RationalIn name f) : RationalIn name (Expr.product fs) ∧
    ∀ᶠ b : ℚ in cofinite, valueAt (fun _ => b) (Expr.product fs) = (fs.map (valueAt fun _ => b)).prod := by
  have hgeneric : ∀ᶠ b : ℚ in cofinite, ∀ f ∈ fs, (point fun _ => b).Defined f :=
    (Filter.eventually_all_finite fs.finite_toSet).2 fun f hf => (h f hf).eventually_defined
  refine ⟨⟨hereditary_varsIn.product fun f hf => (h f hf).vars, ?_⟩, ?_⟩
  · obtain ⟨b, hb⟩ := hgeneric.exists
    exact ⟨b, (Interpretation.hasValue_product fs hb).1⟩
  · filter_upwards [hgeneric] with b hb
    obtain ⟨hd, hv⟩ := Interpretation.hasValue_product fs hb
    rw [hd.definedAt.2, hv]
    exact congrArg List.prod (List.map_congr_left fun f hf => (hb f hf).definedAt.2.symm)

theorem quotient (hx : RationalIn name x) (hy : RationalIn name y) (hy0 : NotZero y) : QuotientOf name (x / y) x y := by
  obtain ⟨hinv, -, hone⟩ := hy.inverse hy0
  have hsides : ∀ f ∈ [x, y.inverse], RationalIn name f := by simpa using ⟨hx, hinv⟩
  obtain ⟨hprod, hvprod⟩ := product hsides
  refine ⟨hprod, hx, hy, hy0, ?_⟩
  filter_upwards [hone, hvprod] with b hb hprod
  change valueAt (fun _ => b) (Expr.product [x, y.inverse]) * _ = _
  rw [hprod, List.map_cons, List.map_cons, List.map_nil, List.prod_cons, List.prod_singleton, mul_assoc, hb, mul_one]

theorem simplify (hx : RationalIn name x) : RationalIn name x.simplify := by
  obtain ⟨b, hb⟩ := hx.defined
  have hd := hb.definedAt.1
  rcases simplify_mem x with hself | hform
  · rwa [hself]
  · rcases built_of_mem_simplifyForms hd hx.plain hform with hself | hbuilt
    · rwa [hself]
    · exact of_built hx.plain.simplify.varsIn hbuilt (hx.plain.simplify_keepsValue _ hd).1

/-- The sides of an expression over a common denominator. -/
theorem toFraction (hx : RationalIn name x) : QuotientOf name x x.toFraction.num x.toFraction.den := by
  obtain ⟨b, hb⟩ := hx.defined
  have hd := hb.definedAt.1
  have hvalue := toFraction_hasValue x hd
  have hsides := inherited_plain.toFraction hx.plain
  have hbuilt := built_toFraction x hd
  exact {
    whole := hx
    num := of_built hsides.num.varsIn hbuilt.num hvalue.num_defined
    den := of_built hsides.den.varsIn hbuilt.den hvalue.den_defined
    den_notZero := ⟨b, hvalue.den_defined, hvalue.den_ne_zero⟩
    value := hx.eventually_definedAt.mono fun c hc => (toFraction_hasValue x hc).num_eq.symm }

end RationalIn

theorem QuotientOf.simplify {n d : Expr} (h : QuotientOf name x n d) : QuotientOf name x.simplify n d where
  whole := h.whole.simplify
  num := h.num
  den := h.den
  den_notZero := h.den_notZero
  value := by
    filter_upwards [h.value, h.whole.eventually_definedAt] with b hb hdb
    rw [← hb]
    exact congrArg (· * _) (h.whole.plain.simplify_keepsValue _ hdb).2

/-! ### Quotients of derivatives -/

namespace RationalIn

variable {n d : Expr} {a : ℚ} {l l₁ l₂ : Extended}

/-- What tends to zero or to an infinity is not constant. -/
theorem exists_exponent (hd : RationalIn name d) (hd0 : NotZero d) (h : Tendsto d.realAt (𝓝[>] (a : ℝ)) (l.nhds ℝ)) :
    ∃ (m : ℤ) (c : ℚ), HasLead d.realAt (a : ℝ) m (algebraMap ℚ ℝ c) ∧
      Tendsto (fun t => (t - a) * (Expr.derivative name d).realAt t / d.realAt t) (𝓝[>] (a : ℝ)) (𝓝 (m : ℝ)) ∧
      (l = .number 0 → 0 < m) ∧ (l.isInfinite = true → m < 0) := by
  obtain ⟨m, c, hlead, hlog⟩ := hd.exists_lead hd0 a
  have hc : c ≠ 0 := fun h0 => hlead.ne_zero (by rw [h0, map_zero])
  have hl : l = leadLimit m c := Extended.unique h hlead.tendsto_leadLimit
  exact ⟨m, c, hlead, hlog, fun h0 => pos_of_leadLimit hc (hl ▸ h0), fun hinf => neg_of_leadLimit (hl ▸ hinf)⟩

theorem notZero_derivative (hd : RationalIn name d) (hd0 : NotZero d) (h : Tendsto d.realAt (𝓝[>] (a : ℝ)) (l.nhds ℝ))
    (hl : l = .number 0 ∨ l.isInfinite = true) : NotZero (Expr.derivative name d) := by
  obtain ⟨m, c, -, hlog, hpos, hneg⟩ := hd.exists_exponent hd0 h
  by_contra hzero
  have hconst : Tendsto (fun t => (t - a) * (Expr.derivative name d).realAt t / d.realAt t) (𝓝[>] (a : ℝ)) (𝓝 0) :=
    tendsto_const_nhds.congr' ((hd.derivative.eventually_eq_zero hzero a).mono fun t ht => by simp [ht])
  have hm : (m : ℝ) = 0 := tendsto_nhds_unique hlog hconst
  rw [Int.cast_eq_zero] at hm
  rcases hl with hl | hl
  · exact (hpos hl).ne' hm
  · exact (hneg hl).ne hm

/-- What is zero everywhere has such a derivative. -/
theorem not_notZero_derivative (hn : RationalIn name n) (hn0 : ¬ NotZero n) : ¬ NotZero (Expr.derivative name n) := by
  obtain ⟨p, q, hq, hform⟩ := hn.exists_formula
  have hp : p = 0 := by
    refine Polynomial.eq_zero_of_infinite_isRoot _ (Set.Infinite.mono (fun b hb => ?_)
      (Filter.frequently_cofinite_iff_infinite.1 (eventually_eval_ne_zero hq).frequently))
    have hvalue := (hform.lenient.at_rat hb).2
    rw [valueAt_eq_zero hn0 (hform.lenient.at_rat hb).1] at hvalue
    exact (div_eq_zero_iff.1 hvalue.symm).resolve_right hb
  intro hne
  obtain ⟨b, hb, hqb⟩ := ((hn.derivative.eventually_ne_zero hne).and (eventually_eval_ne_zero hq)).exists
  exact hb (by simp [hform.valueAt_derivative hqb, hp])

theorem tendsto_zero {f : ℝ → ℝ} {F : Filter ℝ} (h : ∀ᶠ t in F, f t = 0) :
    Tendsto f F ((Extended.number 0).nhds ℝ) := by
  simp only [Extended.nhds, map_zero]
  exact tendsto_const_nhds.congr' (h.mono fun _ ht => ht.symm)

/-- L'Hôpital's rule: a quotient tends to what the quotient of the derivatives tends to, if numerator and denominator
both tend to zero or both to an infinity. -/
theorem tendsto_of_derivatives (hn : RationalIn name n) (hd : RationalIn name d) (hd0 : NotZero d)
    (h₁ : Tendsto n.realAt (𝓝[>] (a : ℝ)) (l₁.nhds ℝ)) (h₂ : Tendsto d.realAt (𝓝[>] (a : ℝ)) (l₂.nhds ℝ))
    (hl : l₁ = .number 0 ∧ l₂ = .number 0 ∨ l₁.isInfinite = true ∧ l₂.isInfinite = true)
    (h : Tendsto (fun t => (Expr.derivative name n).realAt t / (Expr.derivative name d).realAt t) (𝓝[>] (a : ℝ))
      (l.nhds ℝ)) : Tendsto (fun t => n.realAt t / d.realAt t) (𝓝[>] (a : ℝ)) (l.nhds ℝ) := by
  by_cases hn0 : NotZero n
  · obtain ⟨m, c, hlead, hlog, hpos, hneg⟩ := hn.exists_exponent hn0 h₁
    obtain ⟨k, e, hlead', hlog', hpos', hneg'⟩ := hd.exists_exponent hd0 h₂
    have hsigns : 0 < m ∧ 0 < k ∨ m < 0 ∧ k < 0 :=
      hl.imp (fun hl => ⟨hpos hl.1, hpos' hl.2⟩) fun hl => ⟨hneg hl.1, hneg' hl.2⟩
    obtain rfl : l = leadLimit (m - k) (c / e) := Extended.unique h (hlead.derivatives_tendsto hlead' hlog hlog' hsigns)
    have hquotient := hlead.div hlead'
    rw [← map_div₀] at hquotient
    exact hquotient.tendsto_leadLimit
  · have hderiv := hn.derivative.eventually_eq_zero (hn.not_notZero_derivative hn0) a
    obtain rfl : l = .number 0 := Extended.unique h (tendsto_zero (hderiv.mono fun t ht => by rw [ht, zero_div]))
    exact tendsto_zero ((hn.eventually_eq_zero hn0 a).mono fun t ht => by rw [ht, zero_div])

/-- Where the denominator alone tends to zero a quotient tends to an infinity. -/
theorem tendsto_pole (hn : RationalIn name n) (hd : RationalIn name d) (hd0 : NotZero d)
    (h₁ : Tendsto n.realAt (𝓝[>] (a : ℝ)) (l.nhds ℝ)) (hl : l ≠ .number 0)
    (h₂ : Tendsto d.realAt (𝓝[>] (a : ℝ)) ((Extended.number 0).nhds ℝ)) :
    ∃ r : Extended, r.isInfinite = true ∧ Tendsto (fun t => n.realAt t / d.realAt t) (𝓝[>] (a : ℝ)) (r.nhds ℝ) := by
  have hn0 : NotZero n := by
    by_contra hzero
    exact hl (Extended.unique h₁ (tendsto_zero (hn.eventually_eq_zero hzero a)))
  obtain ⟨m, c, hlead, -⟩ := hn.exists_lead hn0 a
  obtain ⟨k, e, hlead', -, hpos, -⟩ := hd.exists_exponent hd0 h₂
  have hm : ¬ 0 < m := fun hm => hl (Extended.unique h₁ (leadLimit_of_pos hm c ▸ hlead.tendsto_leadLimit))
  have hneg : m - k < 0 := by
    have hk := hpos rfl
    omega
  have hquotient := hlead.div hlead'
  rw [← map_div₀] at hquotient
  exact ⟨.signed (c / e), Extended.isInfinite_signed _, leadLimit_of_neg hneg (c / e) ▸ hquotient.tendsto_leadLimit⟩

end RationalIn

/-! ## Limits from the right -/

/-- Whether an expression stands for an extended rational. -/
def Means (L : Expr) : Extended → Prop
  | .number q => ∀ ρ : String → ℚ, DefinedAt ρ L ∧ valueAt ρ L = q
  | .posInf => L = infinity
  | .negInf => L = negInfinity

/-- To the right of a point an expression has values at the reals, and they tend to what `L` stands for. -/
def HasRightLimit (a : ℚ) (x L : Expr) : Prop :=
  (∀ᶠ t in 𝓝[>] (a : ℝ), (pointAs True fun _ => t).Defined x) ∧
    ∃ l : Extended, L.Means l ∧ Tendsto x.realAt (𝓝[>] (a : ℝ)) (l.nhds ℝ)

theorem QuotientOf.hasRightLimit {n d L : Expr} {a : ℚ} {r : Extended} (h : QuotientOf name x n d) (hL : L.Means r)
    (hr : Tendsto (fun t => n.realAt t / d.realAt t) (𝓝[>] (a : ℝ)) (r.nhds ℝ)) : HasRightLimit a x L :=
  ⟨h.whole.eventually_defined_real a, r, hL, hr.congr' ((h.eventually_eq a).mono fun _ ht => ht.symm)⟩

theorem means_expr (l : Extended) : l.expr.Means l := by
  cases l with
  | number q => exact fun ρ => ⟨defined_rat q, rfl⟩
  | posInf => rfl
  | negInf => rfl

/-- A rational or an infinity stands for nothing else. -/
theorem eq_of_means_expr {l m : Extended} (h : l.expr.Means m) : l = m := by
  cases m with
  | number q =>
    obtain ⟨hd, hv⟩ := h fun _ => 0
    cases l with
    | number p => exact congrArg Extended.number hv
    | posInf => exact hd.elim
    | negInf => exact (((defined_mul _).1 hd) infinity (by simp)).elim
  | posInf => cases l <;> simp_all [Means, Extended.expr, negInfinity]
  | negInf => cases l <;> simp_all [Means, Extended.expr, negInfinity]

/-- What does not contain the variable is its own limit. -/
theorem RationalIn.hasRightLimit_self (hx : RationalIn name x) (hvar : x.hasVar name = false) (a : ℚ) :
    HasRightLimit a x x := by
  obtain ⟨b, hb⟩ := hx.defined
  have hplain : Plain (fun _ => False) x := hx.plain.of_varsIn (varsIn_iff.2 fun s hs => by
    obtain rfl := varsIn_iff.1 hx.vars s hs
    exact Bool.false_ne_true (hvar.symm.trans hs))
  have hread (ρ σ : String → ℚ) := hplain.reading (r := .ofVars ρ) (s := .ofVars σ) fun _ h => h.elim
  refine ⟨hx.eventually_defined_real a, .number (valueAt (fun _ => b) x), fun ρ => ?_, ?_⟩
  · exact ⟨(hread _ _).1.1 hb.definedAt.1, (hread _ _).2⟩
  · have hconst := hx.eventually_eq_div (p := .C (valueAt (fun _ => b) x)) (q := 1) one_ne_zero
      (.of_forall fun c => by simpa using (hread (fun _ => c) fun _ => b).2) a
    exact tendsto_const_nhds.congr' (hconst.mono fun t ht => by simp [ht])

/-- The value at the point, if there is one. -/
theorem RationalIn.hasRightLimit_subst {a : ℚ} (hx : RationalIn name x) (ha : DefinedAt (fun _ => a) x) :
    HasRightLimit a x (x.subst name (rat a)) := by
  have hread (ρ : String → ℚ) := hx.plain.reading (r := .ofVars fun _ => a) (s := .ofVars (Function.update ρ name a))
    fun s hs => by
      subst hs
      simp [Reading.ofVars]
  refine ⟨hx.eventually_defined_real a, .number (valueAt (fun _ => a) x), fun ρ => ?_, ?_⟩
  · obtain ⟨hd, hv⟩ := subst_value (ρ := ρ) (s := name) (defined_rat a) x ((hread ρ).1.1 ha)
    exact ⟨hd, hv.trans (hread ρ).2.symm⟩
  · obtain ⟨n, d, hform, hda⟩ := exists_isFormula hx.vars (Interpretation.hasValue_lenient ha).1
    have hd : d ≠ 0 := by
      rintro rfl
      simp at hda
    have hda' : algebraMap ℚ ℝ (d.eval a) ≠ 0 := by simpa using hda
    have hn : Tendsto (fun t : ℝ => Polynomial.aeval t n) (𝓝[>] (a : ℝ)) _ := tendsto_aeval_right n a
    have htendsto := hn.div (tendsto_aeval_right d a) hda'
    rw [← map_div₀, ← (hform.at_rat hda).2] at htendsto
    exact htendsto.congr' ((eventually_aeval_ne_zero hd a).mono fun t ht => ((hform.at_real ht).2).symm)

end Expr

end SymbolicSolver
