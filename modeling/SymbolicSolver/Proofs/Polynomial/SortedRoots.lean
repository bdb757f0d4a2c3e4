import SymbolicSolver.Proofs.Canonical.Order
import SymbolicSolver.Proofs.Polynomial.ClosedForm

/-!
# Sorted roots

Sorting roots by their numeric values keeps roots of one value in the order in which they came, and then only equal
neighbours are dropped. No root is lost and none comes in, but a root comes twice if another one of the same value
stood between its occurrences. All roots without a numeric value count as roots of one value.
-/

namespace SymbolicSolver.Expr

/-! ## Dropping repeats -/

theorem dropRepeats_cons (x : Expr) (xs : List Expr) :
    dropRepeats (x :: xs) = dropRepeats xs ∧ (dropRepeats xs).head? = some x ∨
      dropRepeats (x :: xs) = x :: dropRepeats xs ∧ (dropRepeats xs).head? ≠ some x := by
  rw [dropRepeats]
  split
  · rename_i hnil
    simp [hnil]
  · rename_i y ys hcons
    split
    · rename_i hxy
      simp [hcons, hxy]
    · rename_i hxy
      simp [hcons, Ne.symm hxy]

theorem dropRepeats_sublist (xs : List Expr) : (dropRepeats xs).Sublist xs := by
  induction xs with
  | nil => exact List.Sublist.slnil
  | cons x xs ih =>
    rcases dropRepeats_cons x xs with ⟨hx, -⟩ | ⟨hx, -⟩
    · exact hx ▸ ih.cons x
    · exact hx ▸ ih.cons_cons x

/-- No two neighbours are equal afterwards. -/
theorem dropRepeats_chain (xs : List Expr) : (dropRepeats xs).IsChain (· ≠ ·) := by
  induction xs with
  | nil => exact List.isChain_nil
  | cons x xs ih =>
    rcases dropRepeats_cons x xs with ⟨hx, -⟩ | ⟨hx, hhead⟩
    · exact hx ▸ ih
    · rw [hx, List.isChain_cons]
      exact ⟨fun y hy hxy => hhead (hxy ▸ hy), ih⟩

/-- What is found in the list without equal neighbours is found there still. -/
theorem sublist_dropRepeats {ys xs : List Expr} (hys : ys.IsChain (· ≠ ·)) (h : ys.Sublist xs) :
    ys.Sublist (dropRepeats xs) := by
  induction xs generalizing ys with
  | nil => exact List.sublist_nil.1 h ▸ List.nil_sublist _
  | cons x xs ih =>
    have hdrop := dropRepeats_cons x xs
    rcases List.sublist_cons_iff.1 h with hlater | ⟨zs, rfl, hlater⟩
    · rcases hdrop with ⟨hx, -⟩ | ⟨hx, -⟩
      · exact hx ▸ ih hys hlater
      · exact hx ▸ (ih hys hlater).cons x
    · obtain ⟨hfirst, hzs⟩ := List.isChain_cons.1 hys
      have hfound := ih hzs hlater
      rcases hdrop with ⟨hx, hhead⟩ | ⟨hx, -⟩
      · -- the first of `zs` is another one, so `zs` is found behind `x`
        obtain ⟨us, hus⟩ := List.head?_eq_some_iff.1 hhead
        rw [hx, hus]
        rw [hus] at hfound
        rcases List.sublist_cons_iff.1 hfound with hfound | ⟨ws, rfl, -⟩
        · exact hfound.cons_cons x
        · exact absurd rfl (hfirst x rfl)
      · exact hx ▸ hfound.cons_cons x

/-! ## Sorting by value -/

/-- Compares roots by their numeric values. -/
def compareRoots (a b : Expr) : Ordering := compareValues a.rootValue b.rootValue

theorem compareRoots_eq : compareRoots =
    compareLex (compareOn fun a : Expr => floatPlace a.rootValue.1)
      (compareOn fun a : Expr => floatPlace a.rootValue.2) :=
  rfl

instance : Std.TransCmp compareRoots := by
  rw [compareRoots_eq]
  infer_instance

/-- The roots in the order of their values, those of one value as they came. -/
def orderRoots (roots : List Expr) : List Expr := roots.mergeSort fun a b => (compareRoots a b).isLE

theorem sortRoots_eq (roots : List Expr) : sortRoots roots = dropRepeats (orderRoots roots) := by
  rw [sortRoots, orderRoots]
  congr 1
  rw [List.map_mergeSort (s := fun a b => (compareRoots a b).isLE)]
  · rw [List.map_map]
    exact congrArg (fun xs => xs.mergeSort fun a b => (compareRoots a b).isLE) (List.map_id roots)
  · intro a ha b hb
    obtain ⟨x, -, rfl⟩ := List.mem_map.1 ha
    obtain ⟨y, -, rfl⟩ := List.mem_map.1 hb
    rfl

theorem sortedBy_orderRoots (roots : List Expr) : SortedBy compareRoots (orderRoots roots) :=
  sortedBy_mergeSort compareRoots roots

/-- Roots that are in order already are found in the same order. -/
theorem sublist_orderRoots {ys roots : List Expr} (hys : SortedBy compareRoots ys) (h : ys.Sublist roots) :
    ys.Sublist (orderRoots roots) :=
  List.sublist_mergeSort (fun a b c => Std.TransCmp.isLE_trans) (isLE_total compareRoots) hys h

/-- The roots with the value of `x`. -/
def sameValue (x : Expr) (roots : List Expr) : List Expr := roots.filter fun y => compareRoots x y = .eq

/-- Roots of one value keep their order. -/
theorem sameValue_orderRoots (x : Expr) (roots : List Expr) : sameValue x (orderRoots roots) = sameValue x roots := by
  have hsorted : SortedBy compareRoots (sameValue x roots) := by
    refine List.pairwise_of_forall_mem_list fun a ha b hb => ?_
    have hax : compareRoots a x = .eq := Std.OrientedCmp.eq_symm (by simpa using (List.mem_filter.1 ha).2)
    have hxb : compareRoots x b = .eq := by simpa using (List.mem_filter.1 hb).2
    rw [Std.TransCmp.eq_trans hax hxb]
    rfl
  have hfound := (sublist_orderRoots hsorted List.filter_sublist).filter fun y => decide (compareRoots x y = .eq)
  rw [sameValue, List.filter_filter] at hfound
  have hperm : (orderRoots roots).Perm roots := List.mergeSort_perm roots _
  exact (List.Sublist.eq_of_length (by simpa [sameValue] using hfound) (hperm.filter _).length_eq.symm).symm

/-! ## Roots that come twice -/

/-- In a list in order without equal neighbours, another root of the same value stands between two equal ones. -/
theorem exists_between {roots : List Expr} (hsorted : SortedBy compareRoots roots) (hchain : roots.IsChain (· ≠ ·))
    {a : Expr} (h : [a, a].Sublist roots) : ∃ b, a ≠ b ∧ compareRoots a b = .eq ∧ [a, b, a].Sublist roots := by
  induction roots with
  | nil => exact absurd (List.sublist_nil.1 h) (by simp)
  | cons x roots ih =>
    obtain ⟨hfirst, hrest⟩ := List.pairwise_cons.1 hsorted
    obtain ⟨hnext, hrestChain⟩ := List.isChain_cons.1 hchain
    rcases List.sublist_cons_iff.1 h with hlater | ⟨zs, hzs, hlater⟩
    · obtain ⟨b, hab, heq, hb⟩ := ih hrest hrestChain hlater
      exact ⟨b, hab, heq, hb.cons x⟩
    · obtain ⟨rfl, rfl⟩ := List.cons.inj hzs
      cases roots with
      | nil => exact absurd (List.sublist_nil.1 hlater) (by simp)
      | cons b roots =>
        have hab : a ≠ b := hnext b rfl
        have hmem : a ∈ roots := (List.mem_cons.1 (List.singleton_sublist.1 hlater)).resolve_left hab
        have hle := hfirst b List.mem_cons_self
        have hge := (List.pairwise_cons.1 hrest).1 a hmem
        exact ⟨b, hab, Std.OrientedCmp.isLE_antisymm hle hge,
          ((List.singleton_sublist.2 hmem).cons_cons b).cons_cons a⟩

/-- Sorting loses no root, brings none in and puts them in order; a root comes twice exactly if another root of its value
stood between two of its occurrences. -/
theorem sortRoots_distinct (roots : List Expr) :
    (∀ x, x ∈ sortRoots roots ↔ x ∈ roots) ∧ SortedBy compareRoots (sortRoots roots) ∧
      ((sortRoots roots).Nodup ↔
        ∀ a b, a ≠ b → compareRoots a b = .eq → ¬ [a, b, a].Sublist roots) := by
  have hsub := dropRepeats_sublist (orderRoots roots)
  have hsorted : SortedBy compareRoots (dropRepeats (orderRoots roots)) := (sortedBy_orderRoots roots).sublist hsub
  refine ⟨fun x => mem_sortRoots roots, sortRoots_eq roots ▸ hsorted, ?_⟩
  rw [sortRoots_eq, List.nodup_iff_sublist]
  constructor
  · -- both occurrences are kept, as the other root stands between them still
    intro hnodup a b hab heq h
    have hba : compareRoots b a = .eq := Std.OrientedCmp.eq_symm heq
    have hordered : SortedBy compareRoots [a, b, a] := by
      simp [SortedBy, heq, hba, Std.ReflCmp.compare_self]
    have hkept := sublist_dropRepeats (by simp [hab, Ne.symm hab]) (sublist_orderRoots hordered h)
    exact hnodup a (((List.Sublist.refl [a]).cons b).cons_cons a |>.trans hkept)
  · intro hbetween a h
    obtain ⟨b, hab, heq, hb⟩ := exists_between hsorted (dropRepeats_chain _) h
    have hvalue := (hb.trans hsub).filter fun y => decide (compareRoots a y = .eq)
    have hself : [a, b, a].filter (fun y => decide (compareRoots a y = .eq)) = [a, b, a] := by
      simp [heq, Std.ReflCmp.compare_self]
    rw [hself, ← sameValue, sameValue_orderRoots] at hvalue
    exact hbetween a b hab heq (hvalue.trans List.filter_sublist)

/-- The roots `x` and `y` have no numeric values, so `x` comes twice. -/
theorem sortRoots_repeats : sortRoots [var "x", var "y", var "x"] = [var "x", var "y", var "x"] ∧
    ¬ (sortRoots [var "x", var "y", var "x"]).Nodup := by
  have hvalue (s t : String) : compareRoots (var s) (var t) = .eq :=
    (Std.ReflCmp.compare_self : compareRoots (var s) (var s) = .eq)
  have hsorted : orderRoots [var "x", var "y", var "x"] = [var "x", var "y", var "x"] :=
    List.mergeSort_of_pairwise (by simp [hvalue])
  have hsort : sortRoots [var "x", var "y", var "x"] = [var "x", var "y", var "x"] := by
    rw [sortRoots_eq, hsorted]
    decide
  rw [hsort]
  exact ⟨rfl, by decide⟩

end SymbolicSolver.Expr
