import Mathlib.Tactic.FieldSimp
import Mathlib.Tactic.LinearCombination
import SymbolicSolver.Polynomial.ClosedForm
import SymbolicSolver.Proofs.Canonical.Linear
import SymbolicSolver.Proofs.Canonical.SquareRoot

/-!
# Quadratic and biquadratic equations

With rational coefficients, whose signs are known, the quadratic formula gives a rational root for every rational
solution, and what else it gives is no rational. The same holds for quadratics in the square of the unknown.
-/

namespace SymbolicSolver.Expr

/-! ## Operations on rationals -/

section Rationals

variable (a b : Rat)

@[simp] theorem rat_add_rat : rat a + rat b = rat (a + b) := sum_rat_rat a b

@[simp] theorem rat_mul_rat : rat a * rat b = rat (a * b) := productWithin_rat_rat _ a b

@[simp] theorem neg_rat : -rat a = rat (-a) := by
  rw [← neg_one_mul]
  exact productWithin_rat_rat _ (-1) a

@[simp] theorem rat_sub_rat : rat a - rat b = rat (a - b) := by
  rw [sub_eq_add_neg, ← rat_add_rat, ← neg_rat]
  rfl

end Rationals

theorem div_rat {b : Rat} (hb : b ≠ 0) (hfits : powerFits b (-1) = true) (x : Expr) :
    x / rat b = product [x, rat b⁻¹] := by
  rw [← inverse_rat hb hfits]
  rfl

theorem rat_div_rat (a : Rat) {b : Rat} (hb : b ≠ 0) (hfits : powerFits b (-1) = true) :
    rat a / rat b = rat (a / b) := by
  rw [div_rat hb hfits, div_eq_mul_inv]
  exact productWithin_rat_rat _ a b⁻¹

/-! ## Surds -/

/-- A row of roots with a coefficient, alone or beside a rational. -/
inductive Surd : Expr → Prop
  | root {c : Rat} {hs : List Expr} (hc : c ≠ 0) (hne : hs ≠ []) (h : RootRow hs) : Surd (times c hs)
  | sum {c : Rat} {hs : List Expr} (a : Rat) (hc : c ≠ 0) (hne : hs ≠ []) (h : RootRow hs) :
      Surd (add [times c hs, rat a])

theorem Surd.rat?_eq_none {x : Expr} (h : Surd x) : x.rat? = none := by
  cases h with
  | root hc hne h => exact rat?_times hne h.atom
  | sum => rfl

section Row

variable {c : Rat} {hs : List Expr}

/-- A rational beside a row of roots. -/
theorem surd_sum (a : Rat) (hc : c ≠ 0) (hne : hs ≠ []) (h : RootRow hs) {ts : List Expr}
    (hts : ts = [rat a, times c hs] ∨ ts = [times c hs, rat a]) : Surd (Expr.sum ts) := by
  rw [sum_rat_times a hc hne h.atom hts]
  split
  · exact .root hc hne h
  · exact .sum a hc hne h

/-- A row of roots times a rational, in every round. -/
theorem RootRow.scaled (h : RootRow hs) (hc : c ≠ 0) (hne : hs ≠ []) {w : Rat} (hw : w ≠ 0) {xs : List Expr}
    (hxs : xs = [rat w, times c hs] ∨ xs = [times c hs, rat w]) :
    ∃ gs, gs ≠ [] ∧ RootRow gs ∧ ∀ k, productWithin (k + 2) xs = times (w * c) gs := by
  have hflat : Flat xs (w * c) hs := by
    rcases hxs with rfl | rfl
    · simpa using (Flat.rat w).append (Flat.times c h.atom)
    · simpa [mul_comm] using (Flat.times c h.atom).append (Flat.rat w)
  obtain ⟨gs, hperm, hgs, hprod⟩ := h.product hflat (mul_ne_zero hw hc)
  refine ⟨gs, ?_, hgs, hprod⟩
  rintro rfl
  exact hne hperm.symm.eq_nil

end Row

/-- The negative of a row of roots. -/
theorem RootRow.neg {c : Rat} {hs : List Expr} (h : RootRow hs) (hc : c ≠ 0) (hne : hs ≠ []) :
    ∃ gs, gs ≠ [] ∧ RootRow gs ∧ -times c hs = times (-c) gs := by
  obtain ⟨gs, hgne, hgs, hprod⟩ := h.scaled hc hne (w := -1) (by norm_num) (.inl rfl)
  obtain ⟨k, hk⟩ := roundsFor_eq (sizeAll [rat (-1), times c hs])
  refine ⟨gs, hgne, hgs, ?_⟩
  show Expr.product [rat (-1), times c hs] = _
  rw [Expr.product, hk, hprod (k + 2), neg_one_mul]

/-- A coefficient spreads over a sum of two terms. -/
theorem product_add_rat {w : Rat} (hw : w ≠ 0) (t u : Expr) :
    ∃ k, product [add [t, u], rat w] =
      if w = 1 then add [t, u] else Expr.sum [productWithin (k + 2) [rat w, t], productWithin (k + 2) [rat w, u]] := by
  obtain ⟨k, hk⟩ := roundsFor_eq (sizeAll [add [t, u], rat w])
  refine ⟨k + 1, ?_⟩
  have hpower : powerWithin (k + 3) (add [t, u]) one = add [t, u] := by
    simp [powerWithin, powerStep, one, isZero, isOne]
  rw [product, hk, productWithin, productStep]
  simp [flattenFactors, collectBases, FactorGroups.insertBase, collectBase, hpower, collectRebuilt,
    FactorGroups.insertFactor, multiplyOut, hw, isProduct]

theorem Surd.scaled {x : Expr} (h : Surd x) {w : Rat} (hw : w ≠ 0) : Surd (product [x, rat w]) := by
  cases h with
  | @root c hs hc hne h =>
    obtain ⟨gs, hgne, hgs, hprod⟩ := h.scaled hc hne hw (.inr rfl)
    obtain ⟨k, hk⟩ := roundsFor_eq (sizeAll [times c hs, rat w])
    rw [product, hk, hprod (k + 2)]
    exact .root (mul_ne_zero hw hc) hgne hgs
  | @sum c hs a hc hne h =>
    obtain ⟨k, hk⟩ := product_add_rat hw (times c hs) (rat a)
    obtain ⟨gs, hgne, hgs, hprod⟩ := h.scaled hc hne hw (.inl rfl)
    rw [hk]
    split
    · exact .sum a hc hne h
    · rw [hprod k, productWithin_rat_rat]
      exact surd_sum _ (mul_ne_zero hw hc) hgne hgs (.inr rfl)

theorem Surd.div {x : Expr} (h : Surd x) {b : Rat} (hb : b ≠ 0) (hfits : powerFits b (-1) = true) :
    Surd (x / rat b) := by
  rw [div_rat hb hfits]
  exact h.scaled (inv_ne_zero hb)

/-- Neither square root of a surd is a rational. -/
theorem Surd.sqrt {y : Expr} (h : Surd y) : (sqrt y).rat? = none ∧ (-sqrt y).rat? = none := by
  cases h with
  | root hc hne h => exact (sqrt_times hc hne h).rat?_eq_none
  | @sum c hs a hc hne h =>
    have hb : HalfBase (add [times c hs, rat a]) := halfBase_of rfl (by simp) rfl (by simp) (by simp)
    obtain ⟨k, hk⟩ := roundsFor_eq ((add [times c hs, rat a]).size + half.size)
    rw [Expr.sqrt, power, hk, hb.half]
    exact hb.fractional.rat?_eq_none

/-! ## The quadratic formula -/

/-- The discriminant of a quadratic. -/
def discriminant (a b c : Rat) : Rat := b * b - 4 * a * c

/-- The sign that is computed for a rational is its sign. -/
def SignKnown (q : Rat) : Prop := (rat q).constantSign? = some q.num.sign

/-- A sign is computed for a rational, and it is not that of a negative one. -/
def NotNegative (q : Rat) : Prop := (rat q).constantSign?.all (· < 0) = false

section Quadratic

variable {a b c : Rat} {complex : Bool}

/-- The two roots for one square root of the discriminant. -/
def rootPair (a b d : Rat) : List Expr :=
  [(rat (-b) - sqrt (rat d)) / rat (2 * a), (rat (-b) + sqrt (rat d)) / rat (2 * a)]

/-- The formula for rational coefficients. -/
theorem quadraticRoots_rat (hsign : SignKnown (discriminant a b c)) :
    quadraticRoots (rat a) (rat b) (rat c) complex =
      if discriminant a b c = 0 then [rat (-b) / rat (2 * a)]
      else if discriminant a b c < 0 && !complex then []
      else rootPair a b (discriminant a b c) := by
  have hdisc : rat b * rat b - int 4 * rat a * rat c = rat (discriminant a b c) := by
    simp [int, discriminant]
  have htwo : int 2 * rat a = rat (2 * a) := by simp [int]
  have hconst : (rat (discriminant a b c)).isConstant = true := by simp [isConstant, exist, isVar]
  unfold quadraticRoots
  simp only [hdisc, htwo, neg_rat, hconst, if_true]
  rw [show (rat (discriminant a b c)).constantSign? = _ from hsign]
  dsimp only
  simp only [Int.sign_eq_zero_iff_zero, Rat.num_eq_zero, Int.sign_neg_iff, Rat.num_neg]
  rfl

variable (ha : a ≠ 0) (hfits : powerFits (2 * a) (-1) = true) (hsign : SignKnown (discriminant a b c))

include ha hfits in
/-- For a square the pair is rational, otherwise it is a pair of surds. -/
theorem rootPair_cases (b : Rat) {d : Rat} (hd : d ≠ 0) :
    (∃ s, s * s = d ∧ rootPair a b d = [rat ((-b + -s) / (2 * a)), rat ((-b + s) / (2 * a))]) ∨
      (∀ s, s * s ≠ d) ∧ ∀ y ∈ rootPair a b d, Surd y := by
  have h2a : 2 * a ≠ 0 := mul_ne_zero two_ne_zero ha
  obtain ⟨s, hs, hform⟩ := sqrt_rat hd
  unfold rootPair
  rw [hform.eq_times]
  by_cases hnil : hs = []
  · refine .inl ⟨s, hform.square hnil, ?_⟩
    rw [hnil, times_nil, rat_sub_rat, rat_add_rat, rat_div_rat _ h2a hfits, rat_div_rat _ h2a hfits,
      sub_eq_add_neg]
  · refine .inr ⟨fun t ht => hnil (hform.rational t ht.symm), ?_⟩
    obtain ⟨gs, hgne, hgs, hminus⟩ := hform.row.neg hform.coeff hnil
    have hplus : Surd (rat (-b) + times s hs) := surd_sum (-b) hform.coeff hnil hform.row (.inl rfl)
    have hsub : Surd (rat (-b) - times s hs) := by
      show Surd (Expr.sum [rat (-b), -times s hs])
      rw [hminus]
      exact surd_sum (-b) (neg_ne_zero.2 hform.coeff) hgne hgs (.inl rfl)
    intro y hy
    rcases List.mem_cons.1 hy with rfl | hy
    · exact hsub.div h2a hfits
    · rw [List.mem_singleton.1 hy]
      exact hplus.div h2a hfits

include ha in
/-- Both halves of a rational pair solve the equation. -/
theorem quadratic_of_square {s : Rat} (hs : s * s = discriminant a b c) :
    a * ((-b + s) / (2 * a)) ^ 2 + b * ((-b + s) / (2 * a)) + c = 0 := by
  have hc : c = (b * b - s * s) / (4 * a) := by
    rw [hs, discriminant]
    field_simp
    ring
  rw [hc]
  field_simp
  ring

include ha hfits hsign in
/-- What the formula gives is a solution or no rational. -/
theorem quadraticRoots_spec {y : Expr} (hy : y ∈ quadraticRoots (rat a) (rat b) (rat c) complex) :
    Surd y ∨ ∃ z, y = rat z ∧ a * z ^ 2 + b * z + c = 0 := by
  rw [quadraticRoots_rat hsign] at hy
  split at hy
  · rename_i hzero
    rw [rat_div_rat _ (mul_ne_zero two_ne_zero ha) hfits, List.mem_singleton] at hy
    have hroot := quadratic_of_square (s := 0) (b := b) (c := c) ha (by rw [hzero, mul_zero])
    rw [add_zero] at hroot
    exact .inr ⟨_, hy, hroot⟩
  · rename_i hzero
    split at hy
    · simp at hy
    · rcases rootPair_cases ha hfits b hzero with ⟨s, hs, hpair⟩ | ⟨-, hsurd⟩
      · rw [hpair] at hy
        rcases List.mem_cons.1 hy with rfl | hy
        · exact .inr ⟨_, rfl, quadratic_of_square (s := -s) ha (by rw [neg_mul_neg, hs])⟩
        · exact .inr ⟨_, List.mem_singleton.1 hy, quadratic_of_square ha hs⟩
      · exact .inl (hsurd y hy)

include ha hfits hsign in
/-- Every rational solution is among the roots. -/
theorem mem_quadraticRoots {z : Rat} (hz : a * z ^ 2 + b * z + c = 0) :
    rat z ∈ quadraticRoots (rat a) (rat b) (rat c) complex := by
  have hsq : (2 * a * z + b) * (2 * a * z + b) = discriminant a b c := by
    rw [discriminant]
    linear_combination 4 * a * hz
  have hself {s : Rat} (hs : 2 * a * z + b = s) : z = (-b + s) / (2 * a) := by
    rw [← hs]
    field_simp
    ring
  rw [quadraticRoots_rat hsign]
  split
  · rename_i hzero
    have hz0 : 2 * a * z + b = 0 := by
      rw [hzero] at hsq
      exact mul_self_eq_zero.1 hsq
    rw [rat_div_rat _ (mul_ne_zero two_ne_zero ha) hfits, List.mem_singleton, hself hz0, add_zero]
  · rename_i hzero
    have hpos : ¬ discriminant a b c < 0 := not_lt.2 (hsq ▸ mul_self_nonneg _)
    rw [if_neg (by simp [hpos])]
    rcases rootPair_cases ha hfits b hzero with ⟨s, hs, hpair⟩ | ⟨hno, -⟩
    · rw [hpair]
      rcases mul_self_eq_mul_self_iff.1 (hsq.trans hs.symm) with h | h
      · exact List.mem_cons_of_mem _ (List.mem_singleton.2 (congrArg rat (hself h)))
      · exact List.mem_cons.2 (.inl (congrArg rat (hself h)))
    · exact absurd hsq (hno _)

end Quadratic

/-! ## Quadratics in the square -/

section Biquadratic

variable {a b c : Rat}

variable (ha : a ≠ 0) (hfits : powerFits (2 * a) (-1) = true) (hsign : SignKnown (discriminant a b c))

include ha hfits hsign in
theorem biquadraticRoots_spec {x : Rat} (hx : rat x ∈ biquadraticRoots (rat a) (rat b) (rat c) false) :
    a * (x ^ 2) ^ 2 + b * x ^ 2 + c = 0 := by
  obtain ⟨y, hy, hx⟩ := List.mem_flatMap.1 hx
  split at hx
  · simp at hx
  rcases quadraticRoots_spec ha hfits hsign hy with hsurd | ⟨z, rfl, hz⟩
  · -- a surd has no rational root
    obtain ⟨hplus, hminus⟩ := hsurd.sqrt
    rcases List.mem_cons.1 hx with hx | hx
    · rw [← hx] at hminus
      cases hminus
    · rw [← List.mem_singleton.1 hx] at hplus
      cases hplus
  · suffices hsq : x ^ 2 = z by rwa [hsq]
    by_cases hz0 : z = 0
    · rw [hz0, sqrt_zero, neg_rat] at hx
      have hx0 : x = 0 := by simpa using hx
      rw [hx0, hz0, sq, mul_zero]
    · obtain ⟨s, hs, hform⟩ := sqrt_rat hz0
      have hnil : hs = [] := by
        by_contra hne
        obtain ⟨gs, hgne, hgs, hminus⟩ := hform.row.neg hform.coeff hne
        rw [hform.eq_times, hminus] at hx
        rcases List.mem_cons.1 hx with hx | hx
        · have hr := rat?_times (c := -s) hgne hgs.atom
          rw [← hx] at hr
          cases hr
        · have hr := rat?_times (c := s) hne hform.row.atom
          rw [← List.mem_singleton.1 hx] at hr
          cases hr
      rw [hform.eq_times, hnil, times_nil, neg_rat] at hx
      have hxs : x = -s ∨ x = s := by simpa using hx
      have hsquare := hform.square hnil
      rcases hxs with rfl | rfl
      · rw [← hsquare]
        ring
      · rw [← hsquare, sq]

include ha hfits hsign in
theorem mem_biquadraticRoots {x : Rat} (hkept : NotNegative (x ^ 2))
    (hx : a * (x ^ 2) ^ 2 + b * x ^ 2 + c = 0) : rat x ∈ biquadraticRoots (rat a) (rat b) (rat c) false := by
  refine List.mem_flatMap.2 ⟨rat (x ^ 2), mem_quadraticRoots ha hfits hsign hx, ?_⟩
  unfold NotNegative at hkept
  rw [hkept]
  by_cases hx0 : x = 0
  · subst hx0
    simp [sqrt_zero]
  · obtain ⟨s, hs, hform⟩ := sqrt_rat (pow_ne_zero 2 hx0)
    have hnil := hform.rational x (sq x)
    have hsquare := hform.square hnil
    rw [hform.eq_times, hnil, times_nil, neg_rat]
    rcases mul_self_eq_mul_self_iff.1 ((sq x).symm.trans hsquare.symm) with rfl | rfl <;> simp

end Biquadratic

end SymbolicSolver.Expr
