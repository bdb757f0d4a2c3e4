import SymbolicSolver.Calculus.Integral
import SymbolicSolver.Proofs.Calculus.Antiderivative
import SymbolicSolver.Proofs.Interpretation.Replacement
import SymbolicSolver.Proofs.Simplify.Plain

/-!
# Change of variable

Putting an inner expression in place of the new variable multiplies the change of an antiderivative by that of the inner
expression. The integrand over the derivative of the inner expression, written in the new variable, so has an
antiderivative that becomes one of the integrand: at the points where the derivative does not vanish, and then, as the
derivative of an antiderivative does not depend on the points left out, everywhere.
-/

namespace SymbolicSolver

open TrivSqZeroExt (inl inr)
open scoped DualNumber
open MvPolynomial (aeval supported)

namespace Interpretation

open Expr

variable {K : Type*} [Field K] [CharZero K] {k : Interpretation K} {D : Interpretation K[ε]} {name fresh : String}

/-! ## Calls at their rates -/

/-- The canonical application of a function changes at the rate of the function. -/
theorem Elementary.apply (h : Elementary k D name) {f : Func} {u : Expr} {a : K[ε]} {r : K}
    (hu : D.withoutCalls.HasValue u a) (hr : rate? f a.fst = some r) (ha : a.snd ≠ 0) :
    D.HasChange (apply f u) (r * a.snd) := by
  unfold rate? at hr
  split at hr
  · obtain ⟨hne, hr⟩ := Option.ite_none_left_eq_some.1 hr
    obtain rfl := Option.some.inj hr
    rw [← div_eq_inv_mul]
    exact h.calls.log hu hne (hu.rat?_eq_none ha) (.inl ha)
  · obtain ⟨hne, hr⟩ := Option.ite_none_left_eq_some.1 hr
    obtain rfl := Option.some.inj hr
    rw [← div_eq_inv_mul]
    exact h.calls.atan hu hne ha
  · cases hr

/-! ## The inner variable -/

/-- Dual numbers with their changes multiplied by a number. -/
def scaleChange (c : K) : K[ε] →+* K[ε] := (TrivSqZeroExt.map (c • LinearMap.id : K →ₗ[K] K)).toRingHom

omit [CharZero K] in
@[simp] theorem fst_scaleChange (c : K) (d : K[ε]) : (scaleChange c d).fst = d.fst := TrivSqZeroExt.fst_map _ d

omit [CharZero K] in
@[simp] theorem snd_scaleChange (c : K) (d : K[ε]) : (scaleChange c d).snd = c * d.snd := TrivSqZeroExt.snd_map _ d

/-- Square roots of naturals do not change, and so stay as they are. -/
theorem Tangent.root_scaleChange (h : Tangent k D name) (c : K) (n : ℕ) (s : K[ε]) (hs : D.root? n = some s) :
    D.root? n = some (scaleChange c s) := by
  obtain ⟨t, -, rfl⟩ := h.root n s hs
  exact hs.trans (congrArg some (TrivSqZeroExt.ext (by simp) (by simp)))

theorem Tangent.i_scaleChange (h : Tangent k D name) (c : K) (j : K[ε]) (hj : D.i? = some j) :
    D.i? = some (scaleChange c j) := by
  obtain ⟨t, -, rfl⟩ := h.i j hj
  exact hj.trans (congrArg some (TrivSqZeroExt.ext (by simp) (by simp)))

/-- The tangent along a new variable with a given value, without calls. -/
def innerBase (k : Interpretation K) (D : Interpretation K[ε]) (fresh : String) (a : K) : Interpretation K[ε] :=
  { D.withoutCalls with ofVar := moved (Function.update k.ofVar fresh a) fresh }

open Classical in
/-- The tangent along the new variable. A call has the value of what it becomes when the inner expression is put in. -/
noncomputable def innerTangent (k : Interpretation K) (D : Interpretation K[ε]) (fresh : String) (u : Expr) (a : K) :
    Interpretation K[ε] :=
  let base := innerBase k D fresh a
  base.revalued base.ofVar fun f w =>
    if base.Defined w ∧ (base.eval w).snd ≠ 0 then
      (rate? f (base.eval w).fst).map fun r =>
        inl (D.eval (Expr.apply f (w.subst fresh u))).fst + inr (r * (base.eval w).snd)
    else none

/-- The values along the new variable. -/
noncomputable def innerPoint (k : Interpretation K) (D : Interpretation K[ε]) (fresh : String) (u : Expr) (a : K) :
    Interpretation K :=
  k.revalued (Function.update k.ofVar fresh a) fun f w =>
    ((innerTangent k D fresh u a).call? f w).map TrivSqZeroExt.fst

/-- What a call along the new variable says. -/
theorem innerTangent_call {u w : Expr} {a : K} {f : Func} {d : K[ε]}
    (hd : (innerTangent k D fresh u a).call? f w = some d) : ∃ b r, (innerBase k D fresh a).HasValue w b ∧ b.snd ≠ 0 ∧
      rate? f b.fst = some r ∧ d = inl (D.eval (Expr.apply f (w.subst fresh u))).fst + inr (r * b.snd) := by
  obtain ⟨⟨hw, hb⟩, hd⟩ := Option.ite_none_right_eq_some.1 hd
  obtain ⟨r, hr, rfl⟩ := Option.map_eq_some_iff.1 hd
  exact ⟨_, r, hw.hasValue, hb, hr, rfl⟩

theorem Elementary.inner (h : Elementary k D name) (fresh : String) (u : Expr) (a : K) :
    Elementary (innerPoint k D fresh u a) (innerTangent k D fresh u a) fresh where
  var _ := rfl
  call f w d hd := by
    obtain ⟨b, r, hw, -, hr, rfl⟩ := innerTangent_call hd
    have hbase : Tangent (innerPoint k D fresh u a).withoutCalls (innerBase k D fresh a) fresh :=
      { var := fun _ => rfl
        call := fun _ _ _ h => nomatch h
        root := h.root
        i := h.i
        strict := h.strict }
    have hwk : (innerPoint k D fresh u a).HasValue w b.fst := by
      obtain ⟨hdw, rfl⟩ := hw
      exact (hbase.hasValue_fst hdw).of_withoutCalls
    have hwD : (innerTangent k D fresh u a).HasValue w b := HasValue.of_withoutCalls (I := innerTangent k D fresh u a) hw
    refine ⟨?_, hwD.1, r, hwk.funcDerivative hr, ?_⟩
    · change ((innerTangent k D fresh u a).call? f w).map TrivSqZeroExt.fst = _
      rw [hd]
      rfl
    · rw [hwD.2]
      simp
  root := h.root
  i := h.i
  strict := h.strict
  roots := ⟨h.roots.root, h.roots.unit⟩
  calls.keeps _ _ hx := hx.of_withoutCalls
  calls.call f w b r hw hr hb := by
    obtain ⟨hdw, rfl⟩ : (innerBase k D fresh a).HasValue w b := hw
    have hb := hb.resolve_right not_false
    have hcall : (innerTangent k D fresh u a).call? f w =
        some (inl (D.eval (Expr.apply f (w.subst fresh u))).fst + inr (r * ((innerBase k D fresh a).eval w).snd)) := by
      refine (if_pos ⟨hdw, hb⟩).trans ?_
      rw [hr]
      rfl
    refine ⟨_, ⟨Option.isSome_iff_exists.2 ⟨_, hcall⟩, rfl⟩, ?_⟩
    change (((innerTangent k D fresh u a).call? f w).getD 0).snd = _
    rw [hcall]
    simp

/-- The rule that puts an inner expression in place of the new variable. -/
def substRule (fresh : String) (u : Expr) : Expr → Option Expr := fun y => if y = var fresh then some u else none

section Inner

variable {u p : Expr} {d : K[ε]} (h : Elementary k D name) (hu : D.withoutCalls.HasValue u d) (hd : d.snd ≠ 0)

include h hu

/-- Putting the inner expression in place of the new variable multiplies the changes of expressions without calls. -/
theorem replacement_base : Replacement (· ≠ name) (substRule fresh u) (innerBase k D fresh d.fst) D.withoutCalls
    (scaleChange d.snd) where
  replaced x y hy _ := by
    obtain ⟨rfl, hz⟩ := Option.ite_none_right_eq_some.1 hy
    obtain rfl := Option.some.inj hz
    convert hu using 1
    exact TrivSqZeroExt.ext (by simp [innerBase]) (by simp [innerBase, snd_moved])
  keepsRat _ := rfl
  var s hs hr := by
    have hfresh : s ≠ fresh := by
      rintro rfl
      simp [substRule] at hr
    change D.ofVar s = scaleChange d.snd (moved (Function.update k.ofVar fresh d.fst) fresh s)
    rw [h.var, if_neg hs, add_zero]
    exact TrivSqZeroExt.ext (by simp [hfresh]) (by simp [snd_moved, hfresh])
  call _ _ _ _ ha := nomatch ha
  root := h.root_scaleChange d.snd
  i := h.i_scaleChange d.snd
  lenient := id

include hd

/-- The same of expressions with calls. -/
theorem replacement_inner : Replacement (· ≠ name) (substRule fresh u) (innerTangent k D fresh u d.fst) D
    (scaleChange d.snd) where
  replaced x y hy hx := by
    have hbase := (replacement_base h hu).replaced x y hy
    obtain ⟨rfl, -⟩ := Option.ite_none_right_eq_some.1 hy
    exact (hbase trivial).of_withoutCalls
  keepsRat _ := rfl
  var s hs hr := (replacement_base h hu).var s hs hr
  call f w a hw ha := by
    obtain ⟨b, r, ⟨hdw, rfl⟩, hb, hr, rfl⟩ := innerTangent_call ha
    have hsubst := (replacement_base h hu).hasValue w hw hdw
    obtain ⟨v, ⟨hdv, rfl⟩, hv⟩ := h.apply hsubst (by rwa [fst_scaleChange]) (by simpa using ⟨hd, hb⟩)
    refine ⟨hdv, TrivSqZeroExt.ext ?_ ?_⟩
    · simp only [fst_scaleChange, TrivSqZeroExt.fst_add, TrivSqZeroExt.fst_inl, TrivSqZeroExt.fst_inr, add_zero]
      rfl
    · refine hv.trans ?_
      simp
      ring
  root := h.root_scaleChange d.snd
  i := h.i_scaleChange d.snd
  lenient := id

/-- An expression that changes along the new variable changes, with the inner expression put in, that many times as much
as the inner expression does. -/
theorem HasChange.subst (hp : VarsIn (· ≠ name) p) {c : K} (hc : (innerTangent k D fresh u d.fst).HasChange p c) :
    D.HasChange (p.subst fresh u) (d.snd * c) := by
  obtain ⟨b, ⟨hdp, rfl⟩, rfl⟩ := hc
  exact ⟨_, (replacement_inner h hu hd).hasValue p hp hdp, snd_scaleChange _ _⟩

end Inner

/-! ## The inner expression -/

section Kernel

variable {ρ : String → ℚ} {x u g : Expr}

/-- At a point where an inner expression has a value it has one over the dual numbers, with its derivative for its
change. -/
theorem Tangent.hasValue_kernel (h : Tangent k D name) (hk : ∀ s, k.ofVar s = algebraMap ℚ K (ρ s))
    (hu : (point ρ).Defined u) : ∃ d, D.withoutCalls.HasValue u d ∧ d.fst = algebraMap ℚ K (valueAt ρ u) ∧
      d.snd = algebraMap ℚ K (valueAt ρ (derivative name u)) := by
  have hpoint : Hom (fun _ => True) (point ρ) (point k.ofVar) (algebraMap ℚ K) :=
    { var := fun s _ => hk s
      call := fun _ _ _ _ h => nomatch h
      root := fun _ _ h => nomatch h
      i := fun _ h => nomatch h
      lenient := id }
  have hmoved : Hom (fun _ => True) (point (moved k.ofVar name)) D.withoutCalls (RingHom.id K[ε]) :=
    { var := fun s _ => h.var s
      call := fun _ _ _ _ h => nomatch h
      root := fun _ _ h => nomatch h
      i := fun _ h => nomatch h
      lenient := False.elim }
  have hdual := defined_moved k.ofVar name u (hpoint.hasValue u (varsIn_true u) hu).1
  have htangent := tangent_point k.ofVar name
  obtain ⟨hdu, -⟩ := hu.definedAt
  obtain ⟨-, hderivative, -⟩ := derivative_eq_snd ρ name hu
  refine ⟨_, hmoved.hasValue u (varsIn_true u) hdual, ?_, ?_⟩
  · exact (htangent.hasValue_fst hdual).2.symm.trans (eval_eq_valueAt (k := point k.ofVar) hk u hdu)
  · exact (htangent.hasValue_derivative u hdual).2.symm.trans (eval_eq_valueAt (k := point k.ofVar) hk _ hderivative)

/-- Where the new variable has the value of the inner expression, putting it in the place of the inner expression
changes no value. -/
theorem replace_value (hu : ∀ q, u ≠ rat q) (hρ : ρ fresh = valueAt ρ u) {q : Expr} (hq : DefinedAt ρ q) :
    DefinedAt ρ (q.replace u (var fresh)) ∧ valueAt ρ (q.replace u (var fresh)) = valueAt ρ q := by
  have hreplace : Replacement (fun _ => True) (fun y => if y = u then some (var fresh) else none) (pointAs True ρ)
      (pointAs True ρ) (RingHom.id ℚ) :=
    { replaced := fun y z hz hy => by
        obtain ⟨rfl, heq⟩ := Option.ite_none_right_eq_some.1 hz
        obtain rfl := Option.some.inj heq
        exact ⟨defined_var _, hρ.trans hy.hasValue.definedAt.2⟩
      keepsRat := fun q => if_neg (hu q).symm
      var := fun _ _ _ => rfl
      call := fun _ _ _ _ ha => nomatch ha
      root := fun _ _ hs => nomatch hs
      i := fun _ hj => nomatch hj
      lenient := id }
  obtain ⟨hd, hv⟩ := (hreplace.hasValue q (varsIn_true q) (hasValue_lenient hq).1).definedAt
  exact ⟨hd, hv.trans (hasValue_lenient hq).2⟩

theorem div_value {y : Expr} (hx : DefinedAt ρ x) (hy : DefinedAt ρ y) (hne : valueAt ρ y ≠ 0) :
    DefinedAt ρ (x / y) ∧ valueAt ρ (x / y) = valueAt ρ x / valueAt ρ y := by
  obtain ⟨hd, hv⟩ := ((hasValue_lenient hx).div (hasValue_lenient hy) hne.isUnit).definedAt
  exact ⟨hd, by rw [hv, Ring.inverse_eq_inv', div_eq_mul_inv]⟩

/-- The integrand over the derivative of the inner expression, in terms of the new variable. -/
theorem inTermsOf?_cases (h : inTermsOf? x u name fresh = some g) : g.hasVar name = false ∧
    (g = (x / derivative name u).replace u (var fresh) ∨
      g = (x / derivative name u).simplify.replace u (var fresh)) := by
  unfold inTermsOf? at h
  dsimp only at h
  split at h
  · cases h
  · split at h
    · rename_i hg
      obtain rfl := Option.some.inj h
      exact ⟨by simpa using hg, .inl rfl⟩
    · obtain ⟨hg, h⟩ := Option.ite_none_left_eq_some.1 h
      obtain rfl := Option.some.inj h
      exact ⟨Bool.eq_false_of_not_eq_true hg, .inr rfl⟩

theorem inTermsOf?_value (h : inTermsOf? x u name fresh = some g) (hu : ∀ q, u ≠ rat q) (hρ : ρ fresh = valueAt ρ u)
    (hx : DefinedAt ρ x) (hdu : DefinedAt ρ (derivative name u)) (hne : valueAt ρ (derivative name u) ≠ 0) :
    DefinedAt ρ g ∧ valueAt ρ g = valueAt ρ x / valueAt ρ (derivative name u) := by
  obtain ⟨hq, hvq⟩ := div_value hx hdu hne
  obtain ⟨-, rfl | rfl⟩ := inTermsOf?_cases h
  · obtain ⟨hr, hvr⟩ := replace_value hu hρ hq
    exact ⟨hr, hvr.trans hvq⟩
  · obtain ⟨hs, hvs⟩ := (plain_of_definedAt _ hq (varsIn_true _)).simplify_keepsValue ρ hq
    obtain ⟨hr, hvr⟩ := replace_value hu hρ hs
    exact ⟨hr, hvr.trans (hvs.trans hvq)⟩

end Kernel

end Interpretation

end SymbolicSolver
