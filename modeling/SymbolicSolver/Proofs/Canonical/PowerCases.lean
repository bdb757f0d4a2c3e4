import SymbolicSolver.Proofs.Canonical.Extended

/-!
# What a step of the power does

A step of the power is told from the base and the exponent alone: it leaves the power as it stands, or it gives a value
that is known at once, or it calls further powers and products on parts of the two. The cases are listed here once, each
with the equation for the step, which holds whatever power and product are called.
-/

namespace SymbolicSolver.Expr

variable {b x : Expr}

/-- The power is left as it is. -/
def Stands (b x : Expr) : Prop :=
  ∀ (power : Expr → Expr → Expr) (product : List Expr → Expr), powerStep power product b x = pow b x

/-- The cases of a step. -/
inductive PowerCase : Expr → Expr → Prop
  | undefined {b x : Expr} (h : ∀ power product, powerStep power product b x = .undefined) : PowerCase b x
  | value {b x : Expr} (l : Extended) (h : ∀ power product, powerStep power product b x = l.expr) : PowerCase b x
  | stands {b x : Expr} (h : Stands b x) : PowerCase b x
  | one {b : Expr} (h : ∀ power product, powerStep power product b (rat 1) = b) : PowerCase b (rat 1)
  | unit {q : Rat} (h : ∀ power product, powerStep power product i (rat q) = iPower q.num) : PowerCase i (rat q)
  | root {p q : Rat} (hp : 0 < p) (hp1 : p ≠ 1) (hq : q.den ≠ 1) (hindex : q.den ≤ maxRootIndex)
      (hfits : powerFits p q.floor = true)
      (h : ∀ power product, powerStep power product (rat p) (rat q) = positiveRoot p q) : PowerCase (rat p) (rat q)
  | negativeRoot {p q : Rat} (hp : p < 0) (hq : q.den = 2)
      (h : ∀ power product,
        powerStep power product (rat p) (rat q) = product [iPower q.num, positiveRoot (-p) q]) :
      PowerCase (rat p) (rat q)
  | logarithm {u : Expr} (h : ∀ power product, powerStep power product e (fn .log u) = u) : PowerCase e (fn .log u)
  | scaledLogarithm {c : Rat} {u : Expr}
      (h : ∀ power product, powerStep power product e (mul [rat c, fn .log u]) = power u (rat c)) :
      PowerCase e (mul [rat c, fn .log u])
  | nested {b y x : Expr}
      (h : ∀ power product, powerStep power product (pow b y) x = power b (product [y, x])) : PowerCase (pow b y) x
  | spread {fs : List Expr} {q : Rat} (hq : (rat q).isInteger = true)
      (h : ∀ power product,
        powerStep power product (mul fs) (rat q) = product (fs.map fun f => power f (rat q))) :
      PowerCase (mul fs) (rat q)
  | scaled {c : Rat} {fs : List Expr} {x : Expr} (hc : 0 < c)
      (h : ∀ power product,
        powerStep power product (mul (rat c :: fs)) x = product [power (rat c) x, pow (ofFactors fs) x]) :
      PowerCase (mul (rat c :: fs)) x

/-! ## Rational and infinite operands -/

/-- What the steps before the form of the operands matters leave to be considered. -/
structure Proper (b x : Expr) : Prop where
  defined : ¬ (b = undefined ∨ x = undefined)
  notZero : ¬ x.isZero = true
  notOne : ¬ x.isOne = true
  base : ¬ b.isOne = true

/-- Infinite operands are looked at first. -/
theorem Proper.step_infinite (h : Proper b x) {s : Int} (power : Expr → Expr → Expr) (product : List Expr → Expr)
    (hx : x.infinitySign? = some s) : powerStep power product b x = infinitePower b x s := by
  unfold powerStep
  rw [if_neg h.defined, if_neg h.notZero, if_neg h.notOne, if_neg h.base, hx]

theorem Proper.step_infiniteBase (h : Proper b x) {s : Int} (power : Expr → Expr → Expr)
    (product : List Expr → Expr) (hx : x.infinitySign? = none) (hb : b.infinitySign? = some s) :
    powerStep power product b x = infiniteBase b x s := by
  unfold powerStep
  rw [if_neg h.defined, if_neg h.notZero, if_neg h.notOne, if_neg h.base, hx, hb]

theorem infinitePower_cases (b x : Expr) (s : Int) : infinitePower b x s = pow b x ∨
    infinitePower b x s = undefined ∨ ∃ l : Extended, infinitePower b x s = l.expr := by
  have hzero : ∃ l : Extended, zero = l.expr := ⟨.number 0, rfl⟩
  have hinf : ∃ l : Extended, infinity = l.expr := ⟨.posInf, rfl⟩
  simp only [infinitePower]
  split
  · exact .inl rfl
  split
  · exact .inl rfl
  split
  · exact .inl rfl
  repeat' split
  all_goals first | exact .inl rfl | exact .inr (.inl rfl) | exact .inr (.inr hinf) | exact .inr (.inr hzero)

theorem infiniteBase_cases (b x : Expr) (s : Int) :
    infiniteBase b x s = pow b x ∨ ∃ l : Extended, infiniteBase b x s = l.expr := by
  unfold infiniteBase
  split
  · split
    · exact .inr ⟨.posInf, rfl⟩
    · split
      · split
        · exact .inr ⟨.posInf, rfl⟩
        · exact .inr ⟨.negInf, rfl⟩
      · exact .inl rfl
  · exact .inr ⟨.number 0, rfl⟩
  · exact .inl rfl

theorem Proper.step_rational {p q : Rat} (h : Proper (rat p) (rat q)) (power : Expr → Expr → Expr)
    (product : List Expr → Expr) : powerStep power product (rat p) (rat q) = rationalPower product p q := by
  unfold powerStep
  rw [if_neg h.defined, if_neg h.notZero, if_neg h.notOne, if_neg h.base]
  rfl

theorem Proper.rational {p q : Rat} (h : Proper (rat p) (rat q)) : PowerCase (rat p) (rat q) := by
  have hstep := h.step_rational
  have hp1 : p ≠ 1 := by simpa [isOne] using h.base
  simp only [rationalPower] at hstep
  by_cases h0 : p = 0
  · simp only [if_pos h0] at hstep
    by_cases hq : 0 < q
    · exact .value (.number 0) fun power product => (hstep power product).trans (if_pos hq)
    · exact .undefined fun power product => (hstep power product).trans (if_neg hq)
  simp only [if_neg h0] at hstep
  by_cases hwhole : q.den = 1
  · simp only [if_pos hwhole] at hstep
    by_cases hfits : powerFits p q.num = true
    · exact .value (.number _) fun power product => (hstep power product).trans (if_pos hfits)
    · exact .stands fun power product => (hstep power product).trans (if_neg hfits)
  simp only [if_neg hwhole] at hstep
  by_cases hindex : maxRootIndex < q.den
  · exact .stands fun power product => (hstep power product).trans (if_pos hindex)
  simp only [if_neg hindex] at hstep
  by_cases hneg : p < 0
  · simp only [if_pos hneg] at hstep
    by_cases htwo : q.den = 2
    · exact .negativeRoot hneg htwo fun power product => (hstep power product).trans (if_pos htwo)
    · exact .stands fun power product => (hstep power product).trans (if_neg htwo)
  simp only [if_neg hneg] at hstep
  have hpos : 0 < p := lt_of_le_of_ne (not_lt.1 hneg) (Ne.symm h0)
  by_cases hfits : powerFits p q.floor = true
  · exact .root hpos hp1 hwhole (not_lt.1 hindex) hfits hstep
  · exact .stands fun power product => (hstep power product).trans (by simp [positiveRoot, hfits])

/-! ## Other operands -/

/-- Operands that are treated before the form of the base matters. -/
inductive Special : Expr → Expr → Prop
  | rational (p q : Rat) : Special (rat p) (rat q)
  | unit {q : Rat} (hq : Rational.isInt q = true) : Special i (rat q)
  | logarithm (u : Expr) : Special e (fn .log u)
  | scaledLogarithm (c : Rat) (u : Expr) : Special e (mul [rat c, fn .log u])

theorem Proper.special (h : Proper b x) (hspecial : Special b x) : PowerCase b x := by
  cases hspecial with
  | rational p q => exact h.rational
  | unit hq =>
    refine .unit fun power product => ?_
    unfold powerStep
    rw [if_neg h.defined, if_neg h.notZero, if_neg h.notOne, if_neg h.base]
    exact if_pos hq
  | logarithm u =>
    refine .logarithm fun power product => ?_
    unfold powerStep
    rw [if_neg h.defined, if_neg h.notZero, if_neg h.notOne, if_neg h.base]
    rfl
  | scaledLogarithm c u =>
    refine .scaledLogarithm fun power product => ?_
    unfold powerStep
    rw [if_neg h.defined, if_neg h.notZero, if_neg h.notOne, if_neg h.base]
    rfl

/-- All other operands are told by the form of the base. -/
theorem Proper.step_ordinary (h : Proper b x) (hx : x.infinitySign? = none) (hb : b.infinitySign? = none)
    (hspecial : ¬ Special b x) (power : Expr → Expr → Expr) (product : List Expr → Expr) :
    powerStep power product b x = powerOfBase power product b x := by
  unfold powerStep
  rw [if_neg h.defined, if_neg h.notZero, if_neg h.notOne, if_neg h.base, hx, hb]
  dsimp only
  split
  · exact absurd (.rational _ _) hspecial
  · rw [if_neg fun hq => hspecial (.unit hq)]
  · exact absurd (.logarithm _) hspecial
  · exact absurd (.scaledLogarithm _ _) hspecial
  · rfl

theorem isInteger_eq {x : Expr} (h : x.isInteger = true) : ∃ q, x = rat q := by
  cases x with
  | rat q => exact ⟨q, rfl⟩
  | _ => cases h

/-- A step that is told by the form of the base. -/
theorem powerCase_ofBase (h : ∀ power product, powerStep power product b x = powerOfBase power product b x) :
    PowerCase b x := by
  by_cases hpow : ∃ c y, b = pow c y
  · obtain ⟨c, y, rfl⟩ := hpow
    by_cases hkept : (x.isInteger || c.isPositiveBase) = true
    · exact .nested fun power product => (h power product).trans (if_pos hkept)
    · exact .stands fun power product => (h power product).trans (if_neg hkept)
  by_cases hmul : ∃ fs, b = mul fs
  · obtain ⟨fs, rfl⟩ := hmul
    by_cases hint : x.isInteger = true
    · obtain ⟨q, rfl⟩ := isInteger_eq hint
      exact .spread hint fun power product => (h power product).trans (if_pos hint)
    · simp only [powerOfBase, if_neg hint] at h
      by_cases hcoeff : ∃ c rest, fs = rat c :: rest
      · obtain ⟨c, rest, rfl⟩ := hcoeff
        by_cases hc : 0 < c
        · exact .scaled hc fun power product => (h power product).trans (if_pos hc)
        · exact .stands fun power product => (h power product).trans (if_neg hc)
      · refine .stands fun power product => (h power product).trans ?_
        split
        · exact absurd ⟨_, _, rfl⟩ hcoeff
        · rfl
  · refine .stands fun power product => (h power product).trans ?_
    unfold powerOfBase
    split
    · exact absurd ⟨_, _, rfl⟩ hpow
    · exact absurd ⟨_, rfl⟩ hmul
    · rfl

/-! ## All operands -/

theorem Proper.powerCase (h : Proper b x) : PowerCase b x := by
  cases hx : x.infinitySign? with
  | some s =>
    rcases infinitePower_cases b x s with heq | heq | ⟨l, heq⟩
    · exact .stands fun power product => (h.step_infinite power product hx).trans heq
    · exact .undefined fun power product => (h.step_infinite power product hx).trans heq
    · exact .value l fun power product => (h.step_infinite power product hx).trans heq
  | none =>
    cases hb : b.infinitySign? with
    | some s =>
      rcases infiniteBase_cases b x s with heq | ⟨l, heq⟩
      · exact .stands fun power product => (h.step_infiniteBase power product hx hb).trans heq
      · exact .value l fun power product => (h.step_infiniteBase power product hx hb).trans heq
    | none =>
      by_cases hspecial : Special b x
      · exact h.special hspecial
      · exact powerCase_ofBase (h.step_ordinary hx hb hspecial)

/-- Every step is one of the cases. -/
theorem powerStep_cases (b x : Expr) : PowerCase b x := by
  by_cases hu : b = undefined ∨ x = undefined
  · refine .undefined fun power product => ?_
    unfold powerStep
    rw [if_pos hu]
  by_cases h0 : x.isZero = true
  · refine .value (.number 1) fun power product => ?_
    unfold powerStep
    rw [if_neg hu, if_pos h0]
    rfl
  by_cases h1 : x.isOne = true
  · obtain rfl : x = rat 1 := by
      cases x with
      | rat q => simpa [isOne] using h1
      | _ => cases h1
    refine .one fun power product => ?_
    unfold powerStep
    rw [if_neg hu, if_neg h0, if_pos h1]
  by_cases hb : b.isOne = true
  · by_cases hfin : x.isFinite = true
    · refine .value (.number 1) fun power product => ?_
      unfold powerStep
      rw [if_neg hu, if_neg h0, if_neg h1, if_pos hb, if_pos hfin]
      rfl
    · refine .undefined fun power product => ?_
      unfold powerStep
      rw [if_neg hu, if_neg h0, if_neg h1, if_pos hb, if_neg hfin]
  · exact Proper.powerCase ⟨hu, h0, h1, hb⟩

end SymbolicSolver.Expr
