import SymbolicSolver.Proofs.Canonical.Stable
import SymbolicSolver.Proofs.Interpretation.Operations

/-!
# Values at a point

Rational expressions have values at a point: only the variables stand for something. Nothing is raised to the power
zero in a canonical expression, so it does not matter there that zero to the power zero has no value at a point.
-/

namespace SymbolicSolver

namespace Interpretation

open Expr

/-! ## Points -/

/-- The interpretation by a point, under which calls, roots and the imaginary unit have no value. -/
def point {A : Type*} [CommRing A] (ρ : String → A) : Interpretation A where
  ofVar := ρ
  call? _ _ := none
  root? _ := none
  root_mul_self _ _ h := nomatch h
  i? := none
  i_mul_self _ h := nomatch h
  lenient := False

@[simp] theorem ofVar_point {A : Type*} [CommRing A] (ρ : String → A) (s : String) : (point ρ).ofVar s = ρ s := rfl

section Point

variable {A : Type*} [CommRing A] [Algebra ℚ A] {ρ : String → A}

omit [Algebra ℚ A] in
theorem not_rooted_point (b : Expr) : ¬ (point ρ).Rooted b := by
  rintro ⟨m, -, -, hm⟩
  cases hm

/-- At a point only whole exponents are admitted. -/
theorem Defined.pow_point {b : Expr} {q : ℚ} (h : (point ρ).Defined (pow b (rat q))) :
    ∃ n : ℤ, q = n ∧ (point ρ).Defined b ∧ (point ρ).Admits ((point ρ).eval b) n :=
  h.pow_cases.resolve_right fun hb => not_rooted_point b hb.1

end Point

/-! ## Rational points -/

variable {ρ : String → ℚ}

theorem admits_point {a : ℚ} {n : ℤ} : (point ρ).Admits a n ↔ a ≠ 0 ∨ 0 < n := by
  simp [Admits, point, isUnit_iff_ne_zero]

mutual

/-- The value at a rational point is the value under the assignment. -/
theorem Defined.definedAt : ∀ x : Expr, (point ρ).Defined x → DefinedAt ρ x ∧ valueAt ρ x = (point ρ).eval x
  | .rat q, _ => ⟨Expr.defined_rat q, rfl⟩
  | .var s, _ => ⟨Expr.defined_var s, rfl⟩
  | .add ts, hd => Defined.definedAt_add ts hd
  | .mul fs, hd => Defined.definedAt_mul fs hd
  | .pow b x, hd => by
    obtain ⟨q, rfl⟩ := hd.exponent
    obtain ⟨n, rfl, hb, hn⟩ := hd.pow_point
    obtain ⟨hdb, hvb⟩ := Defined.definedAt b hb
    refine ⟨(Expr.defined_pow_int b n).2 ⟨hdb, ?_⟩, ?_⟩
    · rw [← valueAt, hvb]
      exact (admits_point.1 hn).symm.imp_left le_of_lt
    · rw [valueAt, Expr.eval_pow_int, ← valueAt, hvb, eval_pow_int, intPow_eq_zpow]
  | .fn f u, hd => by cases hd
  | .i, hd => by cases hd
  | .pi, hd | .e, hd | .infinity, hd | .undefined, hd => hd.elim

theorem Defined.definedAt_add : ∀ ts : List Expr, (point ρ).Defined (.add ts) →
    DefinedAt ρ (.add ts) ∧ valueAt ρ (.add ts) = (point ρ).eval (.add ts)
  | [], _ => ⟨trivial, rfl⟩
  | t :: ts, hd => by
    obtain ⟨ht, hvt⟩ := Defined.definedAt t hd.1
    obtain ⟨hts, hvts⟩ := Defined.definedAt_add ts hd.2
    exact ⟨⟨ht, hts⟩, congrArg₂ (· + ·) hvt hvts⟩

theorem Defined.definedAt_mul : ∀ fs : List Expr, (point ρ).Defined (.mul fs) →
    DefinedAt ρ (.mul fs) ∧ valueAt ρ (.mul fs) = (point ρ).eval (.mul fs)
  | [], _ => ⟨trivial, rfl⟩
  | f :: fs, hd => by
    obtain ⟨hf, hvf⟩ := Defined.definedAt f hd.1
    obtain ⟨hfs, hvfs⟩ := Defined.definedAt_mul fs hd.2
    exact ⟨⟨hf, hfs⟩, congrArg₂ (· * ·) hvf hvfs⟩

end

/-- A canonical expression with a value under an assignment has one at the point. -/
theorem defined_of_canonical {x : Expr} (hx : Canonical x) (hd : DefinedAt ρ x) : (point ρ).Defined x := by
  induction hx with
  | rat q => exact defined_rat q
  | var s => exact defined_var s
  | pi | e => exact hd.elim
  | call => simp [Expr.Defined, Reading.ofVars] at hd
  | @power b n _ _ h0 _ _ ih =>
    obtain ⟨hb, hn⟩ := (Expr.defined_pow_int b n).1 hd
    have hbp := ih hb
    refine (defined_pow_int b n).2 ⟨hbp, admits_point.2 ?_⟩
    rw [← (Defined.definedAt b hbp).2]
    exact hn.symm.imp_right fun hn => lt_of_le_of_ne hn h0.symm
  | product _ _ _ ih => exact (defined_mul _).2 fun f hf => ih f hf ((Expr.defined_mul _).1 hd f hf)
  | @scaled c fs _ _ _ _ _ _ ih =>
    exact ⟨defined_rat c, (defined_mul fs).2 fun f hf => ih f hf ((Expr.defined_mul fs).1 hd.2 f hf)⟩
  | sum _ _ _ ih => exact (defined_add _).2 fun t ht => ih t ht ((Expr.defined_add _).1 hd t ht)

end Interpretation

end SymbolicSolver
