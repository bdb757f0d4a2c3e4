import SymbolicSolver.Proofs.Simplify.Plain

/-!
# The substitution lemma

Substitution builds every node anew in canonical form, so the result may look nothing like the expression. Its value is
still that of the expression where the variable is read as the value put in, and its variables are the others together
with those of what is put in.
-/

namespace SymbolicSolver.Expr

variable {p q : String → Prop} {x y : Expr} {s : String}

/-- The variable put in for is gone, unless what is put in brings it back. -/
theorem VarsIn.subst (hx : VarsIn p x) (hy : VarsIn q y) (hother : ∀ v, p v → v ≠ s → q v) :
    VarsIn q (x.subst s y) := by
  have hcarries : Carries (VarsIn p) (VarsIn q) fun z => if z = var s then some y else none := {
    replaced := fun _ h => Option.some.inj (Option.ite_none_right_eq_some.1 h).2 ▸ hy
    var := fun {v} hv h => hother v hv (by simpa using h)
    call := fun _ hz => closed_varsIn.apply _ hz }
  exact hcarries.replaceBy invariant_varsIn invariant_varsIn x hx

theorem hasVar_subst (x : Expr) (hy : y.hasVar s = false) : (x.subst s y).hasVar s = false :=
  (varsIn_ne_iff s _).1 ((varsIn_true x).subst ((varsIn_ne_iff s y).2 hy) fun _ _ hv => hv)

/-- Substitution means a change of the assignment, and it removes a variable that what is put in does not contain. -/
theorem substitution_lemma (x y : Expr) (s : String) :
    (∀ ρ : String → Rat, DefinedAt ρ y → DefinedAt (Function.update ρ s (valueAt ρ y)) x →
      DefinedAt ρ (x.subst s y) ∧ valueAt ρ (x.subst s y) = valueAt (Function.update ρ s (valueAt ρ y)) x) ∧
    (y.hasVar s = false → (x.subst s y).hasVar s = false) :=
  ⟨fun _ hy => subst_value hy x, hasVar_subst x⟩

/-- In the reciprocal of `x + 1`, the double of `y` for `x`, where `y` is three. -/
theorem substitution_lemma_reciprocal :
    (DefinedAt (fun _ => 3) ((pow (add [var "x", rat 1]) (rat (-1))).subst "x" (mul [rat 2, var "y"])) ∧
      valueAt (fun _ => 3) ((pow (add [var "x", rat 1]) (rat (-1))).subst "x" (mul [rat 2, var "y"])) = 1 / 7) ∧
    ((pow (add [var "x", rat 1]) (rat (-1))).subst "x" (mul [rat 2, var "y"])).hasVar "x" = false := by
  have hy : DefinedAt (fun _ => 3) (mul [rat 2, var "y"]) := by simp
  have hvalue : valueAt (fun _ => 3) (mul [rat 2, var "y"]) = 6 := by
    simp [Reading.ofVars]
    norm_num
  have hlemma := substitution_lemma (pow (add [var "x", rat 1]) (rat (-1))) (mul [rat 2, var "y"]) "x"
  obtain ⟨hd, hv⟩ := hlemma.1 (fun _ => 3) hy (by
    rw [hvalue]
    refine (defined_pow_int _ (-1)).2 ⟨by simp, .inr ?_⟩
    simp [Reading.ofVars]
    norm_num)
  refine ⟨⟨hd, hv.trans ?_⟩, hlemma.2 (by decide)⟩
  rw [hvalue]
  refine (eval_pow_int _ (-1)).trans ?_
  simp [Reading.ofVars]
  norm_num

end SymbolicSolver.Expr
