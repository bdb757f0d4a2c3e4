import SymbolicSolver.Expr.Expand
import SymbolicSolver.Proofs.Simplify.CirclePoint

/-!
# Expansion keeps the value

Multiplying two sums term by term, raising a sum to a power by repeated multiplication, and expanding a whole tree
lead from a tree with a value to a tidy tree of the same value.
-/

namespace SymbolicSolver.Expr

variable {p : CirclePoint}

theorem expandAll_eq_map (xs : List Expr) : expandAll xs = xs.map expand := by
  induction xs with
  | nil => rfl
  | cons x xs ih => rw [expandAll, ih, List.map_cons]

/-- A sum over all pairs is the product of the sums. -/
theorem sum_products (xs ys : List Expr) :
    ((xs.flatMap fun x => ys.map fun y => eval p.reading x * eval p.reading y)).sum =
      (xs.map (eval p.reading)).sum * (ys.map (eval p.reading)).sum := by
  induction xs with
  | nil => simp
  | cons x xs ih =>
    rw [List.flatMap_cons, List.sum_append, ih, List.map_cons, List.sum_cons, add_mul,
      List.sum_map_mul_left]

theorem distribute_restates {a b : Expr} (ha : Readable p a) (hb : Readable p b) :
    Restates p (mul [a, b]) (distribute a b) := by
  have hpair {x y : Expr} (hx : Readable p x) (hy : Readable p y) :
      Restates p (mul [x, y]) (product [x, y]) :=
    restates_product (List.forall_mem_cons.2 ⟨hx, List.forall_mem_singleton.2 hy⟩)
  unfold distribute
  split
  · exact hpair ha hb
  · have hall : ∀ t ∈ a.terms.flatMap fun x => b.terms.map fun y => product [x, y],
        Readable p t := by
      intro t ht
      obtain ⟨x, hx, ht⟩ := List.mem_flatMap.1 ht
      obtain ⟨y, hy, rfl⟩ := List.mem_map.1 ht
      exact (hpair (ha.terms x hx) (hb.terms y hy)).toReadable
    have hsum := restates_sum hall
    refine ⟨hsum.toReadable, hsum.value.trans ?_⟩
    have hvalues : (a.terms.flatMap fun x => b.terms.map fun y => product [x, y]).map
          (eval p.reading) =
        a.terms.flatMap fun x => b.terms.map fun y => eval p.reading x * eval p.reading y := by
      rw [List.map_flatMap]
      refine List.flatMap_congr fun x hx => ?_
      rw [List.map_map]
      refine List.map_congr_left fun y hy => ?_
      rw [Function.comp_apply, (hpair (ha.terms x hx) (hb.terms y hy)).value]
      simp
    rw [eval_add, hvalues, sum_products, eval_terms, eval_terms]
    simp

theorem foldl_distribute_restates {fs : List Expr} (h : ∀ f ∈ fs, Readable p f) {x : Expr}
    (hx : Readable p x) : Restates p (mul (x :: fs)) (fs.foldl distribute x) := by
  induction fs generalizing x with
  | nil => exact ⟨hx, by simp⟩
  | cons f fs ih =>
    obtain ⟨hf, hfs⟩ := List.forall_mem_cons.1 h
    have hstep := distribute_restates hx hf
    have hrest := ih hfs hstep.toReadable
    refine ⟨hrest.toReadable, hrest.value.trans ?_⟩
    rw [eval_mul_cons, hstep.value]
    simp [mul_assoc]

theorem expandedPower_spec {b : Expr} (hb : Readable p b) (n : Nat) :
    Readable p (expandedPower b n) ∧
      eval p.reading (expandedPower b n) = eval p.reading b ^ (n + 1) := by
  induction n with
  | zero => exact ⟨hb, (pow_one _).symm⟩
  | succ n ih =>
    have hstep := distribute_restates ih.1 hb
    refine ⟨hstep.toReadable, hstep.value.trans ?_⟩
    rw [pow_succ, ← ih.2]
    simp

theorem expandPower_restates {b : Expr} {n : Rat} (hb : Tidy b)
    (hd : Defined p.reading (pow b (rat n))) : Restates p (pow b (rat n)) (expandPower b (rat n)) := by
  have hpower := restates_power hb (tidy_rat n) hd
  unfold expandPower
  split
  · rename_i k hk
    obtain rfl : n = k := by simpa using smallInt?_eq_some hk
    split
    · rename_i hlarge
      simp only [Bool.and_eq_true, decide_eq_true_eq] at hlarge
      obtain ⟨hdb, hnonzero⟩ := (defined_pow_int b k).1 hd
      obtain ⟨hexp, hvalue⟩ := expandedPower_spec ⟨hb, hdb⟩ (k.natAbs - 1)
      rw [Nat.sub_add_cancel (by omega)] at hvalue
      split
      · rename_i hpos
        refine ⟨hexp, ?_⟩
        rw [hvalue, eval_pow_int, ← zpow_natCast, Int.natAbs_of_nonneg hpos.le]
      · -- a negative power is the reciprocal of the expanded one
        rename_i hneg
        have hdef : Defined p.reading (pow (expandedPower b (k.natAbs - 1)) (rat (-1 : Int))) := by
          rw [defined_pow_int, hvalue]
          exact ⟨hexp.defined, .inr (pow_ne_zero _ (hnonzero.resolve_left (by omega)))⟩
        have hinv := restates_power hexp.tidy (tidy_rat _) hdef
        refine ⟨hinv.toReadable, hinv.value.trans ?_⟩
        rw [eval_pow_int, hvalue, eval_pow_int, ← zpow_natCast, ← zpow_mul]
        congr 1
        omega
    · exact hpower
  · exact hpower

mutual

/-- Expansion makes a tidy tree of the same value out of any tree with a value. -/
theorem expand_restates : ∀ x : Expr, Defined p.reading x → Restates p x x.expand
  | add ts, h => by
    rw [expand]
    exact (expandAll_restates ts ((defined_add ts).1 h)).sum
  | mul fs, h => by
    have hfs := expandAll_restates fs ((defined_mul fs).1 h)
    have hprod := foldl_distribute_restates hfs.readable ⟨tidy_one, defined_rat 1⟩
    rw [expand]
    refine ⟨hprod.toReadable, hprod.value.trans ?_⟩
    rw [eval_mul_cons, eval_mul, eval_mul, hfs.values]
    exact one_mul _
  | pow b x, h => by
    obtain ⟨n, rfl⟩ := h.exponent
    have hbase := expand_restates b ((defined_pow b n).1 h).1
    obtain ⟨hdef, hvalue⟩ := hbase.pow h
    have hpow := expandPower_restates hbase.tidy hdef
    rw [expand]
    exact ⟨hpow.toReadable, hpow.value.trans hvalue⟩
  | fn f x, h => by
    obtain ⟨v, rfl⟩ := h.arg
    show Restates p (fn f (var v)) (apply f (var v))
    rw [apply_var]
    exact Readable.self ⟨trivial, h⟩
  | rat q, h => Readable.self ⟨trivial, h⟩
  | var v, h => Readable.self ⟨trivial, h⟩
  | pi, h | e, h | i, h | infinity, h | undefined, h => h.elim

theorem expandAll_restates :
    ∀ xs : List Expr, (∀ x ∈ xs, Defined p.reading x) → RestatesAll p xs (expandAll xs)
  | [], _ => .nil
  | x :: xs, h => by
    obtain ⟨hx, hxs⟩ := List.forall_mem_cons.1 h
    rw [expandAll]
    exact .cons (expand_restates x hx) (expandAll_restates xs hxs)

end

end SymbolicSolver.Expr
