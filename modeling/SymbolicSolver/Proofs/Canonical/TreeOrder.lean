import SymbolicSolver.Proofs.Canonical.Key

/-!
# The order of trees

Trees are compared by their rank and then by their key, which makes a total preorder of all trees. As a key belongs to one
tree only, it is a total order of the trees whose variables are names: no two of them compare as equal. The same holds
of the comparison of factors.
-/

namespace SymbolicSolver.Expr

open Token (IsName)

theorem compareTree_eq : compareTree = compareLex (compareOn rank) (compareOn key) := rfl

instance : Std.TransCmp compareTree := by
  rw [compareTree_eq]
  infer_instance

theorem compareTree_eq_eq {a b : Expr} : compareTree a b = .eq ↔ a.rank = b.rank ∧ a.key = b.key := by
  simp only [compareTree_eq, compareLex_eq_eq, compareOn, Std.LawfulEqCmp.compare_eq_iff_eq]

/-- The key alone tells whether two trees compare as equal. -/
theorem compareTree_eq_iff {a b : Expr} (ha : VarsIn IsName a) (hb : VarsIn IsName b) :
    compareTree a b = .eq ↔ a = b := by
  refine ⟨fun h => key_injective ha hb (compareTree_eq_eq.1 h).2, ?_⟩
  rintro rfl
  exact Std.ReflCmp.compare_self

theorem compareFactors_eq_iff {a b : Expr} (ha : VarsIn IsName a) (hb : VarsIn IsName b) :
    compareFactors a b = .eq ↔ a = b := by
  refine ⟨eq_of_compareFactors ha hb, ?_⟩
  rintro rfl
  exact Std.ReflCmp.compare_self

/-- Of trees whose variables are names no two have the same key, and the comparison of trees is a total order of them, for
which equal is the same tree; so is the comparison of factors. -/
theorem compareTree_linear {a b c : Expr} (ha : VarsIn IsName a) (hb : VarsIn IsName b) :
    (a.key = b.key → a = b) ∧
    compareTree a a = .eq ∧
    compareTree b a = (compareTree a b).swap ∧
    ((compareTree a b).isLE = true → (compareTree b a).isLE = true → a = b) ∧
    ((compareTree a b).isLE = true → (compareTree b c).isLE = true → (compareTree a c).isLE = true) ∧
    ((compareTree a b).isLE = true ∨ (compareTree b a).isLE = true) ∧
    (compareTree a b = .eq ↔ a = b) ∧
    (compareFactors a b = .eq ↔ a = b) := by
  refine ⟨key_injective ha hb, Std.ReflCmp.compare_self, Std.OrientedCmp.eq_swap, fun hab hba => ?_,
    Std.TransCmp.isLE_trans, ?_, compareTree_eq_iff ha hb, compareFactors_eq_iff ha hb⟩
  · exact (compareTree_eq_iff ha hb).1 (Std.OrientedCmp.isLE_antisymm hab hba)
  · exact Bool.or_eq_true_iff.1 (isLE_total compareTree a b)

/-- The sine of `x` stands before the product of `SIN` and `x`, and that before the power of the two. -/
theorem compareTree_linear_sine :
    let a := fn .sin (var "x")
    let b := pow (var "SIN") (var "x")
    let c := mul [var "SIN", var "x"]
    VarsIn IsName a ∧ VarsIn IsName b ∧ a.key ≠ b.key ∧ (compareTree a c).isLE = true ∧
      compareTree a b ≠ .eq ∧ compareFactors a b ≠ .eq := by
  intro a b c
  have hx : IsName "x" := ⟨'x', [], rfl, by decide, by simp⟩
  have hsin : IsName "SIN" := ⟨'S', ['I', 'N'], rfl, by decide, List.all_eq_true.1 (by decide)⟩
  have hne : a ≠ b := Expr.noConfusion
  obtain ⟨hkey, -, -, -, htrans, -, htree, hfactor⟩ := compareTree_linear (a := a) (b := b) (c := c) hx ⟨hsin, hx⟩
  exact ⟨hx, ⟨hsin, hx⟩, fun h => hne (hkey h), htrans (by decide) (by decide), fun h => hne (htree.1 h),
    fun h => hne (hfactor.1 h)⟩

end SymbolicSolver.Expr
