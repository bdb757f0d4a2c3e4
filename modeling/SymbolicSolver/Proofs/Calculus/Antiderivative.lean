import Mathlib.FieldTheory.IsAlgClosed.AlgebraicClosure
import SymbolicSolver.Proofs.Calculus.Logarithm
import SymbolicSolver.Proofs.Interpretation.Quotient

/-!
# Antiderivatives

An expression is an antiderivative of another if its change over the dual numbers is the value of the other. Square
roots of naturals stand there for any numbers with the right squares, and a logarithm or an arctangent of what changes
for anything that changes at the right rate. The zeros of a polynomial may be left out: what the derivative of an
antiderivative is at a rational point does not depend on them.
-/

namespace SymbolicSolver

open TrivSqZeroExt (inl inr)
open scoped DualNumber
open MvPolynomial (aeval supported)

namespace Interpretation

open Expr

/-! ## Square roots -/

/-- Numbers that stand for the square roots of naturals and of minus one. -/
structure Surds (K : Type*) [CommRing K] where
  root : ℕ → K
  root_mul_self : ∀ n, root n * root n = n
  unit : K
  unit_mul_self : unit * unit = -1

/-- An algebraically closed field has them. -/
noncomputable def Surds.ofIsAlgClosed (K : Type*) [Field K] [IsAlgClosed K] : Surds K where
  root n := (IsAlgClosed.exists_eq_mul_self (n : K)).choose
  root_mul_self n := (IsAlgClosed.exists_eq_mul_self (n : K)).choose_spec.symm
  unit := (IsAlgClosed.exists_eq_mul_self (-1 : K)).choose
  unit_mul_self := (IsAlgClosed.exists_eq_mul_self (-1 : K)).choose_spec.symm

/-- The interpretation by a point, with square roots and the imaginary unit. -/
def surdPoint {A : Type*} [CommRing A] (R : Surds A) (ρ : String → A) : Interpretation A :=
  { point ρ with
    root? := fun n => some (R.root n)
    root_mul_self := fun n _ hs => Option.some.inj hs ▸ R.root_mul_self n
    i? := some R.unit
    i_mul_self := fun _ hj => Option.some.inj hj ▸ R.unit_mul_self }

theorem hasRoots_surdPoint {A : Type*} [CommRing A] (R : Surds A) (ρ : String → A) : (surdPoint R ρ).HasRoots :=
  ⟨fun _ => rfl, rfl⟩

variable {K : Type*} [Field K]

/-- Square roots of numbers do not change. -/
def Surds.dual (R : Surds K) : Surds K[ε] where
  root n := inl (R.root n)
  root_mul_self n := by
    rw [← TrivSqZeroExt.inl_mul, R.root_mul_self, TrivSqZeroExt.inl_natCast]
  unit := inl R.unit
  unit_mul_self := by
    rw [← TrivSqZeroExt.inl_mul, R.unit_mul_self, TrivSqZeroExt.inl_neg, TrivSqZeroExt.inl_one]

variable [CharZero K]

theorem tangent_surdPoint (R : Surds K) (ρ : String → K) (name : String) :
    Tangent (surdPoint R ρ) (surdPoint R.dual (moved ρ name)) name where
  var _ := rfl
  call _ _ _ h := nomatch h
  root n _ h := ⟨R.root n, rfl, (Option.some.inj h).symm⟩
  i _ h := ⟨R.unit, rfl, (Option.some.inj h).symm⟩
  strict := id

/-! ## Elementary tangents -/

/-- The interpretation without its calls. -/
def withoutCalls {A : Type*} [CommRing A] (I : Interpretation A) : Interpretation A :=
  { I with call? := fun _ _ => none }

/-- What has a value without calls has it with them. -/
theorem HasValue.of_withoutCalls {A : Type*} [CommRing A] [Algebra ℚ A] {I : Interpretation A} {x : Expr} {a : A}
    (h : I.withoutCalls.HasValue x a) : I.HasValue x a := by
  have hhom : Hom (fun _ => True) I.withoutCalls I (RingHom.id A) :=
    { var := fun _ _ => rfl
      call := fun _ _ _ _ h => nomatch h
      root := fun _ _ hs => hs
      i := fun _ hj => hj
      lenient := id }
  obtain ⟨hd, rfl⟩ := h
  exact hhom.hasValue x (varsIn_true x) hd

theorem Tangent.withoutCalls {k : Interpretation K} {D : Interpretation K[ε]} {name : String} (h : Tangent k D name) :
    Tangent k D.withoutCalls name where
  var := h.var
  call _ _ _ hd := nomatch hd
  root := h.root
  i := h.i
  strict := h.strict

/-- Tangents with all square roots, in which logarithms and arctangents of what changes without calls change at their
rates. -/
structure Elementary (k : Interpretation K) (D : Interpretation K[ε]) (name : String) : Prop extends
    Tangent k D name where
  roots : D.HasRoots
  calls : Calls False D.withoutCalls D

section

variable {k : Interpretation K} {ρ : String → ℚ}

/-- Where an expression has a value at a rational point, no reading of its variables at that point gives another. -/
theorem eval_eq_valueAt (hk : ∀ s, k.ofVar s = algebraMap ℚ K (ρ s)) : ∀ x : Expr, DefinedAt ρ x →
    k.eval x = algebraMap ℚ K (valueAt ρ x)
  | .rat _, _ => rfl
  | .var s, _ => hk s
  | .add ts, hd => by
    rw [eval_add, valueAt, Expr.eval_add, map_list_sum, List.map_map]
    exact congrArg List.sum (List.map_congr_left fun t ht => eval_eq_valueAt hk t ((Expr.defined_add ts).1 hd t ht))
  | .mul fs, hd => by
    rw [eval_mul, valueAt, Expr.eval_mul, map_list_prod, List.map_map]
    exact congrArg List.prod (List.map_congr_left fun f hf => eval_eq_valueAt hk f ((Expr.defined_mul fs).1 hd f hf))
  | .pow b x, hd => by
    obtain ⟨q, rfl⟩ := Expr.Defined.exponent hd
    have hq : q = (q.num : ℚ) := (Rat.coe_int_num_of_den_eq_one hd.2.1).symm
    rw [hq] at hd ⊢
    rw [eval_pow_int, valueAt, Expr.eval_pow_int, intPow_eq_zpow, eval_eq_valueAt hk b hd.1, map_zpow₀]
  | .fn f u, hd => by simp [Expr.Defined, Reading.ofVars] at hd
  | .pi, hd | .e, hd | .i, hd | .infinity, hd | .undefined, hd => hd.elim

end

/-- Off the zeros of a polynomial in their variables, `F` has over the dual numbers the value of `x` for its change
along a variable. -/
def Antiderivative (name : String) (x F : Expr) : Prop :=
  ∃ P ∈ supported ℚ {s | s = name ∨ x.hasVar s}, P ≠ 0 ∧ ∀ (K : Type) [Field K] [CharZero K] (k : Interpretation K)
    (D : Interpretation K[ε]) (ρ : String → ℚ), Elementary k D name → (∀ s, k.ofVar s = algebraMap ℚ K (ρ s)) →
      aeval ρ P ≠ 0 → DefinedAt ρ x → D.HasChange F (algebraMap ℚ K (valueAt ρ x))

end Interpretation

end SymbolicSolver
