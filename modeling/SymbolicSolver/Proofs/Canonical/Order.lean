import Mathlib.Algebra.Order.Ring.Rat
import SymbolicSolver.Expr.Order

/-!
# Sorted operands

The comparisons of factors and of terms are total preorders: each compares several keys one after the other. Sorting
therefore puts operands in order, and leaves operands alone that are in order already.
-/

namespace SymbolicSolver.Expr

theorem compareRat_eq (a b : Rat) : compareRat a b = compare a b := by
  unfold compareRat
  rcases lt_trichotomy a b with h | h | h
  · rw [if_pos h, compare_lt_iff_lt.2 h]
  · rw [h, if_neg (lt_irrefl b), if_neg (lt_irrefl b), compare_eq_iff_eq.2 rfl]
  · rw [if_neg (lt_asymm h), if_pos h, compare_gt_iff_gt.2 h]

theorem compareFactors_eq : compareFactors =
    compareLex (compareOn fun a : Expr => a.factorKey.1)
      (compareLex (compareOn fun a : Expr => a.factorKey.2.1)
        (compareOn fun a : Expr => a.factorKey.2.2)) :=
  rfl

theorem compareTerms_eq : compareTerms =
    compareLex (compareOn termPlace)
      (compareLex (fun a b => compareOn degree b a)
        (compareLex (compareLex (compareOn fun a : Expr => a.splitCoeff.2.rank)
          (compareOn fun a : Expr => a.splitCoeff.2.key)) (compareOn key))) := by
  funext a b
  simp only [compareTerms, compareTree, compareRat_eq]
  rfl

instance : Std.TransCmp compareFactors := by
  rw [compareFactors_eq]
  infer_instance

instance : Std.TransCmp compareTerms := by
  have : Std.TransCmp fun a b : Expr => compareOn degree b a := Std.TransCmp.opposite
  rw [compareTerms_eq]
  infer_instance

/-- The operands stand in the order of a comparison. -/
def SortedBy (cmp : Expr → Expr → Ordering) (xs : List Expr) : Prop :=
  xs.Pairwise fun a b => (cmp a b).isLE = true

theorem isLE_total (cmp : Expr → Expr → Ordering) [Std.OrientedCmp cmp] (a b : Expr) :
    ((cmp a b).isLE || (cmp b a).isLE) = true := by
  have hswap : cmp b a = (cmp a b).swap := Std.OrientedCmp.eq_swap
  rw [hswap]
  cases cmp a b <;> rfl

theorem sortedBy_mergeSort (cmp : Expr → Expr → Ordering) [Std.TransCmp cmp] (xs : List Expr) :
    SortedBy cmp (xs.mergeSort fun a b => (cmp a b).isLE) :=
  List.pairwise_mergeSort (fun a b c => Std.TransCmp.isLE_trans) (isLE_total cmp) xs

theorem sortFactors_sorted (fs : List Expr) : SortedBy compareFactors (sortFactors fs) :=
  sortedBy_mergeSort compareFactors fs

theorem sortTerms_sorted (ts : List Expr) : SortedBy compareTerms (sortTerms ts) :=
  sortedBy_mergeSort compareTerms ts

theorem sortFactors_of_sorted {fs : List Expr} (h : SortedBy compareFactors fs) : sortFactors fs = fs :=
  List.mergeSort_of_pairwise h

theorem sortTerms_of_sorted {ts : List Expr} (h : SortedBy compareTerms ts) : sortTerms ts = ts :=
  List.mergeSort_of_pairwise h

end SymbolicSolver.Expr
