import SymbolicSolver.Equation.Real
import SymbolicSolver.Proofs.Polynomial.ClosedForm
import SymbolicSolver.Proofs.Simplify.Linear

/-!
# Rational equations in the real tier

The sides of an equation between rational expressions in one variable go over a common denominator. Where the real
tier comes to an end, a rational is among its roots exactly if the numerator vanishes there and the denominator does
not, unless a limit on sizes or a comparison in floating point decided otherwise.
-/

namespace SymbolicSolver

open Expr (valueAt DefinedAt VarsIn Plain)

/-! ## Denominators at a point -/

namespace Expr

/-- At a point the denominator is computed, and floating point tells it from zero unless it is zero. -/
def PoleTold (d : Expr) (x : String) (a : Rat) : Prop :=
  ∃ c, (d.subst x (rat a)).simplify = rat c ∧ (c ≠ 0 → ∃ z, (rat c).evaluateConstant = .ok z ∧ z.norm > 1e-12)

section Pole

variable {d : Expr} {x : String} {a : Rat}

/-- The value of an expression in one variable with a rational put in. -/
theorem simplify_subst_value (hplain : Plain (· = x) d) (hd : DefinedAt (fun _ => a) d) :
    valueAt (fun _ => a) (d.subst x (rat a)).simplify = valueAt (fun _ => a) d := by
  obtain ⟨hdef, hvalue⟩ := subst_value_of_agrees (s := x) (defined_rat a) hd rfl
  have hsubst : Plain (· = x) (d.subst x (rat a)) := hplain.subst (plain_rat a) fun _ hv _ => hv
  exact (hsubst.simplify_keepsValue _ hdef).2.trans hvalue

theorem avoidsPole_iff (hplain : Plain (· = x) d) (hd : DefinedAt (fun _ => a) d) (htold : PoleTold d x a) :
    avoidsPole d x (rat a) = true ↔ valueAt (fun _ => a) d ≠ 0 := by
  obtain ⟨c, hc, hfloat⟩ := htold
  have hvalue := simplify_subst_value hplain hd
  rw [hc] at hvalue
  have hval : c = valueAt (fun _ => a) d := hvalue
  have hfinite : (rat c).isFinite = true := by simp [isFinite, exist]
  unfold avoidsPole
  rw [hc, ← hval]
  dsimp only
  by_cases hc0 : c = 0
  · simp [hc0, isZero]
  · obtain ⟨z, hz, hnorm⟩ := hfloat hc0
    simp [hfinite, isZero, hc0, hz, hnorm]

end Pole

end Expr

open Expr

/-! ## Equations -/

namespace Problem

/-- The numerator of the equation over a common denominator. -/
def numerator (p : Problem) : Expr := p.f.toFraction.num

/-- The common denominator of the equation. -/
def denominator (p : Problem) : Expr := p.f.toFraction.den

/-- No limit on sizes and no comparison in floating point decides: affine numerators have computed coefficients, the
leading coefficient has a computed reciprocal, and the signs of discriminants and the poles at the roots of the
numerator are told right. -/
structure Exact (p : Problem) : Prop where
  affine : ∀ c0 c1, p.numerator.expand.coefficients? p.unknown = some [c0, c1] → ∃ a b, c0 = rat a ∧ c1 = rat b
  leading : ∀ q, p.numerator.expand.ratPoly? p.unknown = some q → q.LeadFits
  signs : ∀ q, p.numerator.expand.ratPoly? p.unknown = some q → q.residual.SignsKnown
  poles : p.denominator.hasVar p.unknown = true → ∀ a, valueAt (fun _ => a) p.numerator = 0 →
    PoleTold p.denominator p.unknown a

/-- An equation between rational expressions in its unknown: somewhere the difference of its sides has a value, and it
is not the constant zero. -/
structure Rational (p : Problem) : Prop where
  plain : Plain (· = p.unknown) p.f
  apart : ∃ a, DefinedAt (fun _ => a) p.f ∧ (p.f.hasVar p.unknown = false → valueAt (fun _ => a) p.f ≠ 0)

end Problem

theorem sub_valueAt {ρ : String → Rat} {x y : Expr} (hx : DefinedAt ρ x) (hy : DefinedAt ρ y) :
    DefinedAt ρ (x - y) ∧ valueAt ρ (x - y) = valueAt ρ x - valueAt ρ y := by
  have hfactors : ∀ z ∈ [rat (-1), y], DefinedAt ρ z := by simp [hy]
  obtain ⟨hneg, hvneg⟩ := product_valueAt hfactors
  have hterms : ∀ z ∈ [x, product [rat (-1), y]], DefinedAt ρ z := by simp [hx, hneg]
  obtain ⟨hsum, hvsum⟩ := sum_valueAt hterms
  refine ⟨hsum, hvsum.trans ?_⟩
  rw [List.map_cons, List.map_singleton, List.sum_pair, hvneg]
  simp [sub_eq_add_neg]

/-- The difference of the sides is such an equation if both are defined somewhere, with different values there unless
the unknown stays in the difference. -/
theorem ofSides_rational {lhs rhs : Expr} {x : String} {settings : Settings} (hl : VarsIn (· = x) lhs)
    (hr : VarsIn (· = x) rhs) {a : Rat} (hdl : DefinedAt (fun _ => a) lhs) (hdr : DefinedAt (fun _ => a) rhs)
    (hne : (Problem.ofSides lhs rhs x settings).f.hasVar x = false →
      valueAt (fun _ => a) lhs ≠ valueAt (fun _ => a) rhs) :
    (Problem.ofSides lhs rhs x settings).Rational := by
  have hpl := plain_of_definedAt lhs hdl hl
  have hpr := plain_of_definedAt rhs hdr hr
  have hplain : Plain (· = x) (lhs - rhs) := inherited_plain.minus hpl hpr
  obtain ⟨hd, hv⟩ := sub_valueAt hdl hdr
  obtain ⟨hdf, hvf⟩ := hplain.simplify_keepsValue _ hd
  have hvalue : valueAt (fun _ => a) (Problem.ofSides lhs rhs x settings).f =
      valueAt (fun _ => a) lhs - valueAt (fun _ => a) rhs := Eq.trans hvf hv
  refine ⟨hplain.simplify, a, hdf, fun hvar => ?_⟩
  rw [hvalue]
  exact sub_ne_zero.2 (hne hvar)

/-- Without the only variable that may occur there is one value. -/
theorem value_const {x : String} {y : Expr} (hy : Plain (· = x) y) (hvar : Plain (· ≠ x) y) (a b : Rat) :
    valueAt (fun _ => a) y = valueAt (fun _ => b) y := by
  -- the point with `b` for the variable and `a` for all others
  let mixed : String → Rat := fun v => if v = x then b else a
  have hleft := (hvar.reading (r := .ofVars fun _ => a) (s := .ofVars mixed) fun v hv => (if_neg hv).symm).2
  have hright := (hy.reading (r := .ofVars mixed) (s := .ofVars fun _ => b) fun v hv => if_pos hv).2
  exact hleft.trans hright

namespace Problem.Rational

variable {p : Problem}

theorem sides (h : p.Rational) : Inherited.Sides (Plain (· = p.unknown)) p.f.toFraction :=
  inherited_plain.toFraction h.plain

theorem entire (h : p.Rational) : p.f.toFraction.Entire := by
  obtain ⟨a, hd, -⟩ := h.apart
  exact toFraction_entire p.f hd

theorem denominator_ne_zero (h : p.Rational) : ∃ a, valueAt (fun _ => a) p.denominator ≠ 0 := by
  obtain ⟨a, hd, -⟩ := h.apart
  exact ⟨a, (toFraction_hasValue p.f hd).den_ne_zero⟩

/-- Without the unknown the numerator is a constant other than zero. -/
theorem numerator_ne_zero (h : p.Rational) (hvar : p.f.hasVar p.unknown = false) (a : Rat) :
    valueAt (fun _ => a) p.numerator ≠ 0 := by
  obtain ⟨b, hd, hne⟩ := h.apart
  have hfree := inherited_plain.toFraction (plain_of_definedAt p.f hd ((varsIn_ne_iff _ _).2 hvar))
  have hvalue := toFraction_hasValue p.f hd
  have hconst : valueAt (fun _ => a) p.numerator = valueAt (fun _ => b) p.numerator :=
    value_const h.sides.num hfree.num a b
  rw [hconst, valueAt, numerator, hvalue.num_eq]
  exact mul_ne_zero (hne hvar) hvalue.den_ne_zero

/-- The numerator has the values of its polynomial. -/
theorem numerator_value (h : p.Rational) {q : RatPoly} (hq : p.numerator.expand.ratPoly? p.unknown = some q)
    (a : Rat) : valueAt (fun _ => a) p.numerator = q.eval a := by
  have hread := (h.sides.num.reading (r := (CirclePoint.ofVars fun _ => a).reading) (s := .ofVars fun _ => a)
    fun _ _ => rfl).2
  have hexp := expand_restates (p := .ofVars fun _ => a) p.numerator (h.entire.num _)
  have hpoly := ratPoly?_value (p := .ofVars fun _ => a) hexp.defined hq
  rw [valueAt, numerator, ← hread]
  exact hexp.value.symm.trans hpoly.symm

end Problem.Rational

/-! ## The end of the tier -/

/-- The tier comes to an end with these roots: it gives them, or it finds that there is none. -/
def Concludes (out : Option SolutionSet × Verdict) (roots : List Expr) : Prop :=
  out.1 = some (.exact roots) ∨ out.1 = none ∧ out.2 = .empty ∧ roots = []

theorem concludes_exactOr {before : Verdict} {found roots : List Expr}
    (h : Concludes (exactOr .empty before found) roots) : roots = found := by
  unfold exactOr at h
  split at h
  · rename_i hnil
    rcases h with h | ⟨-, -, h⟩
    · cases h
    · rw [h, List.isEmpty_iff.1 hnil]
  · rcases h with h | ⟨h, -⟩
    · exact (SolutionSet.exact.inj (Option.some.inj h)).symm
    · cases h

theorem not_concludes_unsolved {before : Verdict} {roots : List Expr}
    (h : Concludes (exactOr .unsolved before []) roots) : False := by
  rcases h with h | ⟨-, h, -⟩ <;> cases h

section Tier

variable {p : Problem} {before : Verdict} {roots : List Expr}

/-- Roots at which the denominator vanishes are left out, and no others. -/
theorem mem_excludePoles (h : p.Rational) (hexact : p.Exact) {a : Rat}
    (hroot : rat a ∈ roots → valueAt (fun _ => a) p.numerator = 0) :
    rat a ∈ excludePoles roots p.denominator p.unknown ↔
      rat a ∈ roots ∧ valueAt (fun _ => a) p.denominator ≠ 0 := by
  unfold excludePoles
  split
  · rename_i hvar
    rw [List.mem_filter]
    refine and_congr_right fun hmem => ?_
    exact avoidsPole_iff h.sides.den (h.entire.den _) (hexact.poles hvar a (hroot hmem))
  · -- the denominator has the same value everywhere
    rename_i hvar
    obtain ⟨b, hden⟩ := h.denominator_ne_zero
    have hfree : Plain (· ≠ p.unknown) p.denominator := plain_of_definedAt _ (h.entire.den (.ofVars fun _ => b))
      ((varsIn_ne_iff p.unknown p.denominator).2 (Bool.eq_false_of_not_eq_true hvar))
    have hconst : valueAt (fun _ => a) p.denominator = valueAt (fun _ => b) p.denominator :=
      value_const h.sides.den hfree a b
    rw [hconst]
    exact (and_iff_left hden).symm

/-- An affine numerator with computed coefficients is a polynomial with rational coefficients. -/
theorem affineRoot?_eq_none (hexact : p.Exact) (hpoly : p.numerator.expand.ratPoly? p.unknown = none) :
    p.numerator.expand.affineRoot? p.unknown = none := by
  unfold affineRoot?
  split
  · rename_i c0 c1 hcoeffs
    obtain ⟨a, b, rfl, rfl⟩ := hexact.affine c0 c1 hcoeffs
    simp [ratPoly?, hcoeffs, rat?] at hpoly
  · rfl

/-- The roots that the tier ends with are the rationals at which the numerator of the equation vanishes and the
denominator does not. -/
theorem mem_realTier (h : p.Rational) (hexact : p.Exact) (hend : Concludes (realTier p before) roots) (a : Rat) :
    rat a ∈ roots ↔ valueAt (fun _ => a) p.numerator = 0 ∧ valueAt (fun _ => a) p.denominator ≠ 0 := by
  unfold realTier at hend
  split at hend
  · rename_i hvar
    have hroots : roots = [] := by
      rcases hend with hend | ⟨-, -, hend⟩
      · cases hend
      · exact hend
    rw [hroots]
    exact iff_of_false (by simp) fun ha => h.numerator_ne_zero (by simpa using hvar) a ha.1
  · split at hend
    · rcases hend with hend | ⟨-, hend, -⟩ <;> cases hend
    · dsimp only at hend
      split at hend
      · rename_i q hq
        split at hend
        · rcases hend with hend | ⟨hend, -⟩ <;> cases hend
        · rename_i hzero
          split at hend
          · rename_i found hfound
            have hmem := mem_polynomialRoots? (Bool.eq_false_of_not_eq_true hzero) (hexact.leading q hq)
              (hexact.signs q hq) hfound a
            rw [← h.numerator_value hq] at hmem
            rw [concludes_exactOr hend, ← hmem]
            exact mem_excludePoles h hexact hmem.1
          · rcases hend with hend | ⟨-, hend, -⟩ <;> cases hend
      · rename_i hpoly
        have hnone : p.f.toFraction.num.expand.affineRoot? p.unknown = none := affineRoot?_eq_none hexact hpoly
        have hnil : excludePoles [] p.f.toFraction.den p.unknown = [] := by simp [excludePoles]
        rw [hnone, Option.toList_none, hnil] at hend
        exact (not_concludes_unsolved hend).elim

end Tier

/-! ## Rational equations -/

/-- The sides of an equation are rational expressions in its unknown, both defined somewhere, and their difference is
not the constant zero. Then the rational roots at the end of the real tier are those rationals at which the numerator
vanishes and the denominator does not. -/
theorem realTier_exact {lhs rhs : Expr} {x : String} {settings : Settings} {before : Verdict} {roots : List Expr}
    (hl : VarsIn (· = x) lhs) (hr : VarsIn (· = x) rhs) {a : Rat} (hdl : DefinedAt (fun _ => a) lhs)
    (hdr : DefinedAt (fun _ => a) rhs)
    (hne : (Problem.ofSides lhs rhs x settings).f.hasVar x = false →
      valueAt (fun _ => a) lhs ≠ valueAt (fun _ => a) rhs)
    (hexact : (Problem.ofSides lhs rhs x settings).Exact)
    (hend : Concludes (realTier (Problem.ofSides lhs rhs x settings) before) roots) (x0 : Rat) :
    rat x0 ∈ roots ↔
      valueAt (fun _ => x0) (Problem.ofSides lhs rhs x settings).numerator = 0 ∧
        valueAt (fun _ => x0) (Problem.ofSides lhs rhs x settings).denominator ≠ 0 :=
  mem_realTier (ofSides_rational hl hr hdl hdr hne) hexact hend x0

/-- The difference of the sides of `3*x = 2`. -/
def line : Expr := add [mul [rat 3, var "x"], rat (-2)]

theorem line_linear : Linear line := by
  have hsum : sum [product [rat 3, var "x"], rat (-2)] = line := by cbv
  refine hsum ▸ sum_linear ?_
  simp [linear_var, linear_rat, product_rat_linear]

theorem line_f (settings : Settings) : (Problem.ofSides (mul [rat 3, var "x"]) (rat 2) "x" settings).f = line := by
  have hsub : mul [rat 3, var "x"] - rat 2 = line := by cbv
  have hsimplify : line.simplify = line := line_linear.simplify (by decide)
  show (mul [rat 3, var "x"] - rat 2).simplify = line
  rw [hsub, hsimplify]

theorem line_numerator : line.toFraction.num = line := by cbv

theorem line_denominator : line.toFraction.den = rat 1 := by cbv

theorem line_expand : line.expand = line := line_linear.expand

theorem line_coefficients : line.coefficients? "x" = some [rat (-2), rat 3] := by cbv

theorem line_ratPoly : line.ratPoly? "x" = some (.ofList [-2, 3]) := by cbv

theorem line_polynomialRoots : polynomialRoots? (.ofList [-2, 3]) false = some [rat (2 / 3)] := by
  have hdegree : (RatPoly.ofList [-2, 3]).degree? = some 1 := by decide +kernel
  have hrational : (RatPoly.ofList [-2, 3]).rationalRoots = [2 / 3] := by decide +kernel
  have hrest : residualRoots? (RatPoly.ofList [-2, 3]).residual false = some [] := by decide +kernel
  have hsort : sortRoots [rat (2 / 3)] = [rat (2 / 3)] := by simp [sortRoots, dropRepeats]
  rw [RatPoly.residual, hrational] at hrest
  simp only [polynomialRoots?, hdegree, hrational, hrest]
  simp [hsort]

theorem line_exact (settings : Settings) :
    (Problem.ofSides (mul [rat 3, var "x"]) (rat 2) "x" settings).Exact := by
  have hnum : (Problem.ofSides (mul [rat 3, var "x"]) (rat 2) "x" settings).numerator.expand = line := by
    rw [Problem.numerator, line_f, line_numerator, line_expand]
  have hden : (Problem.ofSides (mul [rat 3, var "x"]) (rat 2) "x" settings).denominator = rat 1 := by
    rw [Problem.denominator, line_f, line_denominator]
  constructor
  · intro c0 c1 h
    rw [hnum] at h
    cases h.symm.trans line_coefficients
    exact ⟨-2, 3, rfl, rfl⟩
  · intro q h
    rw [hnum] at h
    cases h.symm.trans line_ratPoly
    unfold RatPoly.LeadFits
    decide
  · intro q h
    rw [hnum] at h
    cases h.symm.trans line_ratPoly
    have hdegree : (RatPoly.ofList [-2, 3]).residual.degree? = some 0 := by decide +kernel
    constructor <;> simp [hdegree]
  · intro h
    rw [hden] at h
    cases h

theorem realTier_line (settings : Settings) (before : Verdict) :
    realTier (.ofSides (mul [rat 3, var "x"]) (rat 2) "x" settings) before = (some (.exact [rat (2 / 3)]), before) := by
  have hunknown : (Problem.ofSides (mul [rat 3, var "x"]) (rat 2) "x" settings).unknown = "x" := rfl
  have hvar : line.hasVar "x" = true := by decide
  have houtside : line.occursOutsideCircular "x" = true := by decide
  have hzero : (RatPoly.ofList [-2, 3]).isZero = false := by decide
  have hden : (rat 1).hasVar "x" = false := rfl
  simp [realTier, line_f, hunknown, hvar, houtside, line_numerator, line_expand, line_ratPoly, hzero,
    line_polynomialRoots, line_denominator, excludePoles, hden, exactOr]

/-- The only root of `3*x = 2` is two thirds. -/
theorem realTier_exact_line :
    Concludes (realTier (.ofSides (mul [rat 3, var "x"]) (rat 2) "x" .default) .none) [rat (2 / 3)] ∧
      ∀ x0, rat x0 ∈ [rat (2 / 3)] ↔
        valueAt (fun _ => x0) (Problem.ofSides (mul [rat 3, var "x"]) (rat 2) "x" .default).numerator = 0 ∧
          valueAt (fun _ => x0) (Problem.ofSides (mul [rat 3, var "x"]) (rat 2) "x" .default).denominator ≠ 0 := by
  have hend : Concludes (realTier (.ofSides (mul [rat 3, var "x"]) (rat 2) "x" .default) .none) [rat (2 / 3)] :=
    .inl (by rw [realTier_line])
  refine ⟨hend, realTier_exact (a := 0) ?_ ?_ ?_ ?_ ?_ (line_exact .default) hend⟩
  · simp [VarsIn, AllVarsIn]
  · simp [VarsIn]
  · simp [Defined]
  · trivial
  · intro hvar
    rw [line_f] at hvar
    cases hvar

end SymbolicSolver
