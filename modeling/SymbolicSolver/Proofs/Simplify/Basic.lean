import SymbolicSolver.Proofs.Polynomial.Coefficients
import SymbolicSolver.Proofs.Simplify.Fraction
import SymbolicSolver.Proofs.Simplify.Trigonometric
import SymbolicSolver.Simplify.Basic

/-!
# Simplification keeps the value

Every form that competes with an expression has its value wherever the expression is defined, and the answer is one of
them. Cancelling a common divisor may widen the domain: only the points at which the expression itself is defined
count.
-/

namespace SymbolicSolver.Expr

/-! ## Cancelling -/

/-- The reduced fraction is the quotient of the polynomials wherever the denominator does not vanish. -/
theorem reduceFraction?_value (r : Reading) {num den : RatPoly} {name : String} {y : Expr}
    (hden : den.eval (r.var name) ≠ 0) (h : reduceFraction? num den name = some y) :
    Defined r y ∧ eval r y = num.eval (r.var name) / den.eval (r.var name) := by
  unfold reduceFraction? at h
  split at h
  · simp at h
  · rename_i hdz
    dsimp only at h
    simp only [Option.ite_none_left_eq_some, Option.some.injEq] at h
    obtain ⟨hbz, rfl⟩ := h
    have hg := RatPoly.gcd_isZero (a := num) (Bool.eq_false_of_not_eq_true hdz)
    obtain ⟨hdn, hdd⟩ := RatPoly.gcd_dvd num den
    have htop := RatPoly.divMod_of_dvd hg hdn
    have hbottom := RatPoly.divMod_of_dvd hg hdd
    -- Both sides are multiples of the divisor, which does not vanish here, and lose it together.
    generalize (num.divMod (num.gcd den)).1 = top at htop ⊢
    generalize (den.divMod (num.gcd den)).1 = bottom at hbz hbottom ⊢
    obtain ⟨-, hlead⟩ := RatPoly.getLast?_coeffs (Bool.eq_false_of_not_eq_true hbz)
    rw [RatPoly.eval_eq, hbottom, Polynomial.eval_mul] at hden
    obtain ⟨hb0, hg0⟩ := mul_ne_zero_iff.1 hden
    obtain ⟨hnum, hvnum⟩ := ofRatPoly_value r (top.scale bottom.lead⁻¹) name
    obtain ⟨hmonic, hvmonic⟩ := ofRatPoly_value r bottom.monic name
    rw [RatPoly.eval_eq, RatPoly.toPoly_scale, Polynomial.eval_mul, Polynomial.eval_C] at hvnum
    rw [RatPoly.eval_eq, RatPoly.toPoly_monic, Polynomial.eval_mul, Polynomial.eval_C] at hvmonic
    have hquot := hnum.over hmonic (by
      rw [hvmonic]
      exact mul_ne_zero (inv_ne_zero hlead) hb0)
    refine ⟨hquot.1, hquot.2.trans ?_⟩
    rw [hvnum, hvmonic, RatPoly.eval_eq, RatPoly.eval_eq, htop, hbottom, Polynomial.eval_mul,
      Polynomial.eval_mul, mul_div_mul_left _ _ (inv_ne_zero hlead), mul_div_mul_right _ _ hg0]

theorem cancel?_keepsValue (p : CirclePoint) {x y : Expr} (h : x.cancel? = some y) :
    KeepsValue p.reading x y := by
  intro hx
  have hfrac := toFraction_hasValue x hx
  have hnum := expand_restates _ hfrac.num_defined
  have hden := expand_restates _ hfrac.den_defined
  have hden0 : eval p.reading x.toFraction.den.expand ≠ 0 := by
    rw [hden.value]
    exact hfrac.den_ne_zero
  have hvalue : eval p.reading x.toFraction.num.expand / eval p.reading x.toFraction.den.expand =
      eval p.reading x := by
    rw [hnum.value, hden.value, hfrac.num_eq, mul_div_cancel_right₀ _ hfrac.den_ne_zero]
  obtain ⟨hquot, hvquot⟩ := hnum.defined.over hden.defined hden0
  simp only [cancel?, Option.ite_none_left_eq_some] at h
  obtain ⟨-, -, h⟩ := h
  split at h
  · rename_i v _
    split at h
    · rename_i num den hpn hpd
      have hvn := ratPoly?_value hnum.defined hpn
      have hvd := ratPoly?_value hden.defined hpd
      rw [← hvalue, ← hvn, ← hvd]
      exact reduceFraction?_value p.reading (hvd.trans_ne hden0) h
    · obtain rfl := Option.some.inj h
      exact ⟨hquot, hvquot.trans hvalue⟩
  · obtain rfl := Option.some.inj h
    exact ⟨hquot, hvquot.trans hvalue⟩

/-! ## The shortest form -/

/-- The answer is one of the candidates. -/
theorem fewestOps_mem (best : Expr) (xs : List Expr) : fewestOps best xs ∈ best :: xs := by
  unfold fewestOps
  induction xs generalizing best with
  | nil => simp
  | cons x xs ih =>
    rw [List.foldl_cons]
    split
    · exact List.mem_cons_of_mem _ (ih x)
    · rcases List.mem_cons.1 (ih best) with h | h
      · rw [h]
        exact List.mem_cons_self
      · exact List.mem_cons_of_mem _ (List.mem_cons_of_mem _ h)

theorem simplifyForms_keepsValue (p : CirclePoint) {x y : Expr} (h : y ∈ simplifyForms x) :
    KeepsValue p.reading x y := by
  have hexpand : KeepsValue p.reading x x.expand := fun hx =>
    ⟨(expand_restates x hx).defined, (expand_restates x hx).value⟩
  simp only [simplifyForms, List.mem_cons, List.mem_append] at h
  rcases h with (rfl | h) | h
  · exact trigIdentities_keepsValue p x
  · split at h
    · obtain rfl := List.mem_singleton.1 h
      exact hexpand.trans (trigIdentities_keepsValue p _)
    · simp at h
  · split at h
    · rename_i f hf
      have hcancel := cancel?_keepsValue p hf
      rcases List.mem_cons.1 h with rfl | h
      · exact hcancel.trans (trigIdentities_keepsValue p f)
      · rwa [List.mem_singleton.1 h]
    · simp at h

/-- Wherever an expression has a value, with sine, cosine and tangent read on the unit circle, its shortest form has
the same value. -/
theorem simplify_preserves_value (p : CirclePoint) (x : Expr) (h : Defined p.reading x) :
    Defined p.reading x.simplify ∧ eval p.reading x.simplify = eval p.reading x := by
  unfold simplify
  split
  · exact ⟨h, rfl⟩
  · rcases List.mem_cons.1 (fewestOps_mem x (simplifyForms x)) with hself | hform
    · rw [hself]
      exact ⟨h, rfl⟩
    · exact simplifyForms_keepsValue p hform h

/-- The point `(3/5, 4/5)` for every variable, and the number two for the variable itself. -/
def CirclePoint.threeFourFive : CirclePoint where
  var _ := 2
  sin _ := 3 / 5
  cos _ := 4 / 5
  on_circle _ := by norm_num

/-- `(x² - 1) / (x + 1) + sin(t) / cos(t)` is `7/4` for `x = 2` at the point `(3/5, 4/5)`, and so is its shortest
form. -/
theorem simplify_preserves_value_at_point :
    eval CirclePoint.threeFourFive.reading
      (add [mul [add [pow (var "x") (rat (2 : Int)), rat (-1)],
          pow (add [var "x", rat 1]) (rat (-1 : Int))],
        mul [fn .sin (var "t"), pow (fn .cos (var "t")) (rat (-1 : Int))]]).simplify = 7 / 4 := by
  rw [(simplify_preserves_value .threeFourFive _ ?_).2]
  · norm_num [CirclePoint.threeFourFive]
  · norm_num [CirclePoint.threeFourFive]

end SymbolicSolver.Expr
