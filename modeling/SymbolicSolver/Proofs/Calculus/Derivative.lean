import Mathlib.Algebra.DualNumber
import Mathlib.Algebra.Module.Rat
import SymbolicSolver.Calculus.Derivative
import SymbolicSolver.Proofs.Interpretation.Point
import SymbolicSolver.Proofs.Polynomial.Quadratic

/-!
# The derivative is the first-order change

Over the dual numbers `K[ε]` the value of an expression at a point moved by `ε` is its value at the point together with
`ε` times its first-order change. The symbolic derivative has that change for its value: the rules for sums, products
and powers say how the change of each node comes from those of its parts, and canonical constructors keep values, so
nothing is lost when the derivative is built.
-/

namespace SymbolicSolver

open TrivSqZeroExt (inl inr)
open scoped DualNumber

variable {K : Type*} [Field K]

/-- Multiplication in a field is the same from either side, which makes the dual numbers over it commute. -/
instance isCentralScalar_field (K : Type*) [Field K] : IsCentralScalar K K := CommSemigroup.isCentralScalar

/-- The dual numbers over a field of characteristic zero are an algebra over the rationals. -/
instance algebraDualNumber (K : Type*) [Field K] [CharZero K] : Algebra ℚ K[ε] := inferInstance

/-! ## Powers of dual numbers -/

theorem isUnit_dual_iff {d : K[ε]} : IsUnit d ↔ d.fst ≠ 0 := by
  rw [TrivSqZeroExt.isUnit_iff_isUnit_fst, isUnit_iff_ne_zero]

/-- The value part of a dual number, as a homomorphism. -/
def valuePart (K : Type*) [Field K] : K[ε] →+* K := (TrivSqZeroExt.fstHom K K K).toRingHom

@[simp] theorem valuePart_apply (d : K[ε]) : valuePart K d = d.fst := rfl

theorem fst_intPow {d : K[ε]} {n : ℤ} (h : d.fst ≠ 0 ∨ 0 ≤ n) : (intPow d n).fst = d.fst ^ n := by
  rw [← valuePart_apply, map_intPow _ (h.imp_left isUnit_dual_iff.2), intPow_eq_zpow, valuePart_apply]

theorem snd_intPow {d : K[ε]} {n : ℤ} (h : d.fst ≠ 0 ∨ 0 < n) : (intPow d n).snd = n * d.fst ^ (n - 1) * d.snd := by
  by_cases hd : d.fst = 0
  · have hn : 0 < n := h.resolve_left (not_not_intro hd)
    obtain ⟨m, rfl⟩ := Int.eq_ofNat_of_zero_le hn.le
    have hpred : ((m.pred : ℕ) : ℤ) = m - 1 := by
      rw [Nat.pred_eq_sub_one]
      omega
    rw [intPow_natCast, TrivSqZeroExt.snd_pow, nsmul_eq_mul, smul_eq_mul, ← zpow_natCast, hpred, Int.cast_natCast,
      mul_assoc]
  have hstep (n : ℤ) : (intPow d (n + 1)).snd = d.fst ^ n * d.snd + (intPow d n).snd * d.fst := by
    obtain ⟨u, rfl⟩ := isUnit_dual_iff.2 hd
    rw [intPow_unit, zpow_add_one, Units.val_mul, ← intPow_unit, DualNumber.snd_mul, fst_intPow (.inl hd)]
  induction n using Int.induction_on with
  | zero => simp
  | succ n ih =>
    rw [hstep, ih (.inl hd), add_sub_cancel_right, zpow_sub_one₀ hd]
    push_cast
    field_simp
    ring
  | pred n ih =>
    have hback := hstep (-n - 1)
    rw [sub_add_cancel, ih (.inl hd)] at hback
    refine mul_right_cancel₀ hd ?_
    rw [zpow_sub_one₀ hd (-n - 1)]
    push_cast at hback ⊢
    field_simp
    linear_combination -hback

/-! ## Interpretations over dual numbers -/

namespace Interpretation

open Expr

variable [CharZero K]

/-- Over the dual numbers one variable is moved by `ε`, and a call changes as the derivative of its function says. Calls
whose arguments have no value have none. -/
structure Tangent (k : Interpretation K) (D : Interpretation K[ε]) (name : String) : Prop where
  var : ∀ s, D.ofVar s = inl (k.ofVar s) + if s = name then DualNumber.eps else 0
  call : ∀ f u d, D.call? f u = some d → k.call? f u = some d.fst ∧ D.Defined u ∧
    ∃ c, k.HasValue (funcDerivative f u) c ∧ d.snd = c * (D.eval u).snd
  root : ∀ n s, D.root? n = some s → ∃ t, k.root? n = some t ∧ s = inl t
  i : ∀ j, D.i? = some j → ∃ t, k.i? = some t ∧ j = inl t
  strict : ¬ D.lenient

namespace Tangent

variable {k : Interpretation K} {D : Interpretation K[ε]} {name : String} (h : Tangent k D name)

include h

theorem hom : Hom (fun _ => True) D k (valuePart K) where
  var s _ := by
    rw [h.var]
    split <;> simp
  call f u d _ hd := (h.call f u d hd).1
  root n s hs := by
    obtain ⟨t, ht, rfl⟩ := h.root n s hs
    exact ht
  i j hj := by
    obtain ⟨t, ht, rfl⟩ := h.i j hj
    exact ht
  lenient hl := absurd hl h.strict

/-- The value part is the value at the point. -/
theorem hasValue_fst {x : Expr} (hx : D.Defined x) : k.HasValue x (D.eval x).fst :=
  h.hom.hasValue x (varsIn_true x) hx

theorem admits {d : K[ε]} {n : ℤ} (hn : D.Admits d n) : d.fst ≠ 0 ∨ 0 < n :=
  hn.imp isUnit_dual_iff.1 fun hn => hn.resolve_right fun hz => h.strict hz.2

theorem snd_rootOf {b : Expr} (hb : D.Rooted b) : (D.rootOf b).snd = 0 := by
  obtain ⟨m, rfl, -, hs⟩ := hb
  obtain ⟨s, hs⟩ := Option.isSome_iff_exists.1 hs
  obtain ⟨t, -, rfl⟩ := h.root m s hs
  simp [rootOf, hs]

end Tangent

/-! ## Expressions without the variable -/

variable {k : Interpretation K} {D : Interpretation K[ε]} {name : String}

mutual

/-- Without the variable there is no change. -/
theorem Tangent.snd_eval_of_not_hasVar (h : Tangent k D name) : ∀ x : Expr, D.Defined x → x.hasVar name = false →
    (D.eval x).snd = 0
  | .rat q, _, _ => rfl
  | .var s, _, hx => by
    have hs : s ≠ name := by simpa [hasVar, exist] using hx
    rw [eval_var, h.var, if_neg hs]
    simp
  | .i, hd, _ => by
    obtain ⟨j, hj⟩ := Option.isSome_iff_exists.1 hd
    obtain ⟨t, -, rfl⟩ := h.i j hj
    change (D.i?.getD 0).snd = 0
    rw [hj]
    rfl
  | .fn f u, hd, hx => by
    obtain ⟨d, hcall⟩ := Option.isSome_iff_exists.1 hd
    obtain ⟨-, hu, c, -, hsnd⟩ := h.call f u d hcall
    have hux : u.hasVar name = false := by simpa [hasVar, exist] using hx
    change ((D.call? f u).getD 0).snd = 0
    rw [hcall, Option.getD_some, hsnd, h.snd_eval_of_not_hasVar u hu hux, mul_zero]
  | .add ts, hd, hx => by
    have hts : existAny (· = Expr.var name) ts = false := by simpa [hasVar, exist] using hx
    exact h.snd_eval_add_of_not_hasVar ts hd hts
  | .mul fs, hd, hx => by
    have hfs : existAny (· = Expr.var name) fs = false := by simpa [hasVar, exist] using hx
    exact h.snd_eval_mul_of_not_hasVar fs hd hfs
  | .pow b x, hd, hx => by
    obtain ⟨q, rfl⟩ := hd.exponent
    have hbx : b.hasVar name = false := by
      simp only [hasVar, exist, Bool.or_eq_false_iff] at hx
      exact hx.1.2
    have hv : D.eval (.pow b (.rat q)) = if q.den = 1 then intPow (D.eval b) q.num else intPow (D.rootOf b) q.num := rfl
    rcases hd with ⟨hden, hb, hn⟩ | ⟨hden, hb⟩
    · rw [hv, if_pos hden, snd_intPow (h.admits hn), h.snd_eval_of_not_hasVar b hb hbx, mul_zero]
    · rw [hv, if_neg (by omega), snd_intPow (.inl (isUnit_dual_iff.1 hb.isUnit_rootOf)), h.snd_rootOf hb, mul_zero]
  | .pi, hd, _ | .e, hd, _ | .infinity, hd, _ | .undefined, hd, _ => hd.elim

theorem Tangent.snd_eval_add_of_not_hasVar (h : Tangent k D name) : ∀ ts : List Expr, D.Defined (.add ts) →
    existAny (· = Expr.var name) ts = false → (D.eval (.add ts)).snd = 0
  | [], _, _ => rfl
  | t :: ts, hd, hx => by
    obtain ⟨hxt, hxts⟩ := by simpa [existAny] using hx
    rw [eval_add_cons, TrivSqZeroExt.snd_add, h.snd_eval_of_not_hasVar t hd.1 hxt,
      h.snd_eval_add_of_not_hasVar ts hd.2 hxts, add_zero]

theorem Tangent.snd_eval_mul_of_not_hasVar (h : Tangent k D name) : ∀ fs : List Expr, D.Defined (.mul fs) →
    existAny (· = Expr.var name) fs = false → (D.eval (.mul fs)).snd = 0
  | [], _, _ => rfl
  | f :: fs, hd, hx => by
    obtain ⟨hxf, hxfs⟩ := by simpa [existAny] using hx
    rw [eval_mul_cons, DualNumber.snd_mul, h.snd_eval_of_not_hasVar f hd.1 hxf,
      h.snd_eval_mul_of_not_hasVar fs hd.2 hxfs, mul_zero, zero_mul, add_zero]

end

/-! ## Derivatives -/

theorem power_rat_zero {b : Expr} (hb : b ≠ .undefined) : power b (rat 0) = .one := by
  obtain ⟨k, hk⟩ := roundsFor_eq (b.size + (rat 0).size)
  rw [power, hk, powerWithin]
  unfold powerStep
  rw [if_neg (by simpa using hb), if_pos (by simp [isZero])]

/-- The rule for a whole power. -/
theorem Tangent.powerDerivative (h : Tangent k D name) {b : Expr} {n : ℤ}
    (hx : (Expr.pow b (rat n)).hasVar name = true) (hb : D.Defined b) (hn : D.Admits (D.eval b) n) {db : Expr}
    (hdb : k.HasValue db (D.eval b).snd) (dx : Expr) :
    k.HasValue (powerDerivative name b (rat n) db dx) (D.eval (.pow b (rat n))).snd := by
  have hbv : b.hasVar name = true := by simpa [hasVar, exist] using hx
  have hadm := h.admits hn
  have hbk := h.hasValue_fst hb
  have hpow : k.HasValue (power b (rat n - .one)) ((D.eval b).fst ^ (n - 1)) := by
    have hexp : rat n - .one = rat ((n - 1 : ℤ) : ℚ) := by
      rw [Expr.one, rat_sub_rat]
      push_cast
      rfl
    rw [hexp, ← intPow_eq_zpow]
    by_cases h1 : n = 1
    · rw [h1, sub_self, Int.cast_zero, power_rat_zero hb.ne_undefined, intPow_zero]
      exact hasValue_one
    · exact hbk.power (hadm.imp (IsUnit.mk0 _) fun h0 => .inl (by omega))
  rw [Expr.powerDerivative, hbv]
  obtain ⟨hd, hv⟩ := hasValue_product (I := k) [rat n, power b (rat n - .one), db]
    (by simpa using ⟨hpow.1, hdb.1⟩)
  refine ⟨hd, hv.trans ?_⟩
  rw [eval_pow_int, snd_intPow hadm]
  simp [hpow.2, hdb.2, mul_assoc]

mutual

/-- The derivative has the first-order change for its value. -/
theorem Tangent.hasValue_derivative (h : Tangent k D name) : ∀ x : Expr, D.Defined x →
    k.HasValue (derivative name x) (D.eval x).snd
  | .rat q, _ => by
    rw [derivative]
    · exact hasValue_zero
    all_goals simp
  | .var s, _ => by
    rw [derivative, eval_var, h.var]
    split
    · simpa using hasValue_one
    · simpa using hasValue_zero
  | .i, hd => by
    rw [h.snd_eval_of_not_hasVar .i hd rfl, derivative]
    · exact hasValue_zero
    all_goals simp
  | .fn f u, hd => by
    rw [derivative]
    split
    · obtain ⟨d, hcall⟩ := Option.isSome_iff_exists.1 hd
      obtain ⟨-, hu, c, hc, hsnd⟩ := h.call f u d hcall
      have heval : D.eval (.fn f u) = d := by
        change (D.call? f u).getD 0 = d
        rw [hcall, Option.getD_some]
      rw [heval, hsnd]
      exact hc.mul (h.hasValue_derivative u hu)
    · rename_i hx
      rw [h.snd_eval_of_not_hasVar _ hd (Bool.not_eq_true _ ▸ hx)]
      exact hasValue_zero
  | .add ts, hd => by
    rw [derivative]
    split
    · obtain ⟨hts, hv⟩ := h.derivativeAll ts hd
      obtain ⟨hsum, hvsum⟩ := hasValue_sum _ hts
      exact ⟨hsum, hvsum.trans hv⟩
    · rename_i hx
      rw [h.snd_eval_of_not_hasVar _ hd (Bool.not_eq_true _ ▸ hx)]
      exact hasValue_zero
  | .mul fs, hd => by
    rw [derivative]
    split
    · obtain ⟨hfs, hv⟩ := h.productRule [] fs (by simp) hd
      obtain ⟨hsum, hvsum⟩ := hasValue_sum _ hfs
      exact ⟨hsum, hvsum.trans (by simpa using hv)⟩
    · rename_i hx
      rw [h.snd_eval_of_not_hasVar _ hd (Bool.not_eq_true _ ▸ hx)]
      exact hasValue_zero
  | .pow b x, hd => by
    rw [derivative]
    split
    · rename_i hx
      obtain ⟨q, rfl⟩ := hd.exponent
      obtain ⟨n, rfl, hb, hn⟩ | ⟨⟨m, rfl, -⟩, -⟩ := hd.pow_cases
      · exact h.powerDerivative hx hb hn (h.hasValue_derivative b hb) _
      · simp [hasVar, exist] at hx
    · rename_i hx
      rw [h.snd_eval_of_not_hasVar _ hd (Bool.not_eq_true _ ▸ hx)]
      exact hasValue_zero
  | .pi, hd | .e, hd | .infinity, hd | .undefined, hd => hd.elim

theorem Tangent.derivativeAll (h : Tangent k D name) : ∀ ts : List Expr, D.Defined (.add ts) →
    (∀ t ∈ derivativeAll name ts, k.Defined t) ∧
      ((derivativeAll name ts).map k.eval).sum = (D.eval (.add ts)).snd
  | [], _ => ⟨by simp [Expr.derivativeAll], rfl⟩
  | t :: ts, hd => by
    obtain ⟨ht, hvt⟩ := h.hasValue_derivative t hd.1
    obtain ⟨hts, hvts⟩ := h.derivativeAll ts hd.2
    rw [Expr.derivativeAll]
    exact ⟨List.forall_mem_cons.2 ⟨ht, hts⟩, by
      rw [List.map_cons, List.sum_cons, hvt, hvts, eval_add_cons, TrivSqZeroExt.snd_add]⟩

/-- The terms of the product rule add up to the change of the rest of a product, times what stands before. -/
theorem Tangent.productRule (h : Tangent k D name) : ∀ before fs : List Expr, (∀ f ∈ before, D.Defined f) →
    D.Defined (.mul fs) → (∀ t ∈ productRule name before fs, k.Defined t) ∧
      ((productRule name before fs).map k.eval).sum = (D.eval (.mul before)).fst * (D.eval (.mul fs)).snd
  | before, [], _, _ => ⟨by simp [Expr.productRule], by simp [Expr.productRule]⟩
  | before, f :: fs, hbefore, hd => by
    obtain ⟨hrest, hvrest⟩ := h.productRule (f :: before) fs (List.forall_mem_cons.2 ⟨hd.1, hbefore⟩) hd.2
    rw [eval_mul_cons, TrivSqZeroExt.fst_mul] at hvrest
    rw [Expr.productRule, eval_mul_cons, DualNumber.snd_mul]
    split
    · obtain ⟨hf, hvf⟩ := h.hasValue_derivative f hd.1
      obtain ⟨hprod, hvprod⟩ := hasValue_product (I := k) (before.reverse ++ derivative name f :: fs) (by
        intro g hg
        rcases List.mem_append.1 hg with hg | hg
        · exact (h.hasValue_fst (hbefore g (List.mem_reverse.1 hg))).1
        · rcases List.mem_cons.1 hg with rfl | hg
          · exact hf
          · exact (h.hasValue_fst ((defined_mul fs).1 hd.2 g hg)).1)
      have hbefore' := (h.hasValue_fst ((defined_mul before).2 hbefore)).2
      have hfs' := (h.hasValue_fst (x := .mul fs) hd.2).2
      rw [eval_mul] at hbefore' hfs'
      refine ⟨List.forall_mem_cons.2 ⟨hprod, hrest⟩, ?_⟩
      rw [List.map_cons, List.sum_cons, hvrest, hvprod, List.map_append, List.prod_append, List.map_reverse,
        List.prod_reverse, hbefore', List.map_cons, List.prod_cons, hvf, hfs']
      ring
    · rename_i hx
      rw [hvrest, h.snd_eval_of_not_hasVar f hd.1 (Bool.not_eq_true _ ▸ hx)]
      exact ⟨hrest, by ring⟩

end

/-! ## Rational expressions -/

/-- A point moved by `ε` along a variable. -/
def moved (ρ : String → K) (name : String) (s : String) : K[ε] := inl (ρ s) + if s = name then DualNumber.eps else 0

omit [CharZero K] in
@[simp] theorem fst_moved (ρ : String → K) (name s : String) : (moved ρ name s).fst = ρ s := by
  unfold moved
  split <;> simp

omit [CharZero K] in
theorem snd_moved (ρ : String → K) (name s : String) : (moved ρ name s).snd = if s = name then 1 else 0 := by
  unfold moved
  split <;> simp

section Point

variable (ρ : String → K) (name : String)

theorem tangent_point : Tangent (point ρ) (point (moved ρ name)) name where
  var _ := rfl
  call _ _ _ h := nomatch h
  root _ _ h := nomatch h
  i _ h := nomatch h
  strict := id

mutual

/-- What has a value at a point has one at the moved point. -/
theorem defined_moved : ∀ x : Expr, (point ρ).Defined x → (point (moved ρ name)).Defined x
  | .rat q, _ => defined_rat q
  | .var s, _ => defined_var s
  | .add ts, hd => defined_moved_all ts hd
  | .mul fs, hd => defined_moved_all fs hd
  | .pow b x, hd => by
    obtain ⟨q, rfl⟩ := hd.exponent
    obtain ⟨n, rfl, hb, hn⟩ := hd.pow_point
    have hbm := defined_moved b hb
    refine (defined_pow_int b n).2 ⟨hbm, hn.imp_left fun hu => ?_⟩
    rw [isUnit_dual_iff, ← ((tangent_point ρ name).hasValue_fst hbm).2]
    exact hu.ne_zero
  | .fn f u, hd => by cases hd
  | .i, hd => by cases hd
  | .pi, hd | .e, hd | .infinity, hd | .undefined, hd => hd.elim

theorem defined_moved_all : ∀ xs : List Expr, (point ρ).AllDefined xs → (point (moved ρ name)).AllDefined xs
  | [], _ => trivial
  | x :: xs, hd => ⟨defined_moved x hd.1, defined_moved_all xs hd.2⟩

end

end Point

/-- The derivative of a rational expression has a value wherever the expression has one, and it is the coefficient of
`ε` in the value over the dual numbers. -/
theorem derivative_eq_snd (ρ : String → ℚ) (name : String) {x : Expr} (hx : (point ρ).Defined x) :
    (point (moved ρ name)).Defined x ∧ DefinedAt ρ (derivative name x) ∧
      valueAt ρ (derivative name x) = ((point (moved ρ name)).eval x).snd := by
  have hm := defined_moved ρ name x hx
  obtain ⟨hd, hv⟩ := (tangent_point ρ name).hasValue_derivative x hm
  obtain ⟨hdef, hval⟩ := hd.definedAt
  exact ⟨hm, hdef, hval.trans hv⟩

/-- The quotient `x² / (x + y)`. -/
def quotientExample : Expr :=
  .mul [.pow (.var "x") (rat (2 : ℤ)), .pow (.add [.var "x", .var "y"]) (rat (-1 : ℤ))]

/-- The change of `x² / (x + y)` along `x` at the point where both are one. -/
theorem derivative_eq_snd_quotient : (point fun _ => (1 : ℚ)).Defined quotientExample ∧
    valueAt (fun _ => 1) (derivative "x" quotientExample) = 3 / 4 := by
  have hx : (point fun _ => (1 : ℚ)).Defined quotientExample := by
    simp only [quotientExample, defined_mul, List.forall_mem_cons, defined_pow_int, defined_add, admits_point, eval_add,
      eval_var, ofVar_point]
    simp
  refine ⟨hx, (derivative_eq_snd _ "x" hx).2.2.trans ?_⟩
  have hsum : (moved (fun _ => (1 : ℚ)) "x" "x" + (moved (fun _ => 1) "x" "y" + 0)).fst = 2 := by
    simp
    norm_num
  have hne : (moved (fun _ => (1 : ℚ)) "x" "x" + (moved (fun _ => 1) "x" "y" + 0)).fst ≠ 0 := by
    rw [hsum]
    norm_num
  simp only [quotientExample, eval_mul, List.map_cons, List.map_nil, List.prod_cons, List.prod_nil, eval_pow_int,
    eval_add, List.sum_cons, List.sum_nil, eval_var, ofVar_point, mul_one, DualNumber.snd_mul]
  rw [snd_intPow (.inr (by decide : (0 : ℤ) < 2)), snd_intPow (.inl hne), fst_intPow (.inr (by decide : (0 : ℤ) ≤ 2)),
    fst_intPow (.inl hne), hsum]
  simp [snd_moved]
  norm_num

end Interpretation

end SymbolicSolver
