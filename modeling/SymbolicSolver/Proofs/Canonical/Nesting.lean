import SymbolicSolver.Simplify.Trigonometric

/-!
# Levels of nesting

The depth of a tree is no measure that sums and products respect: a power of a product becomes a product of powers, and a
coefficient before a sum a sum of products, each with a node more on the way to a leaf. `nesting` counts levels so that
these regroupings are free. A term counts from its factors on (`termNesting`), an exponent or argument from the terms of
its factors on (`sumNesting`), and a power stands on the level of its base.

The depth of a tree is at most about three times its number of levels (`depth_le`).
-/

namespace SymbolicSolver.Expr

/-! ## The measure -/

def isPower : Expr → Bool
  | pow _ _ => true
  | _ => false

mutual

/-- How many exponents stand over the innermost base, in the highest factor. -/
def tower : Expr → Nat
  | pow b _ => tower b + 1
  | mul fs => towers fs
  | _ => 0

/-- The highest tower in a list. -/
def towers : List Expr → Nat
  | [] => 0
  | f :: fs => max (tower f) (towers fs)

end

mutual

/-- The number of levels of a tree that stands as a factor. -/
def nesting : Expr → Nat
  | rat _ => 0
  | add ts => max 1 (termNestings ts) + 1
  | mul fs => max 1 (nestings fs) + 1
  | pow b x =>
    max (max 1 (nesting b + if b.isPower then 1 else 0))
      (nesting x - (if x.isSum || x.isProduct then 1 else 0) + 1 + tower b)
  | fn _ x => nesting x - (if x.isSum || x.isProduct then 1 else 0) + 2
  | _ => 1

/-- The most levels of a factor in a list. -/
def nestings : List Expr → Nat
  | [] => 0
  | f :: fs => max (nesting f) (nestings fs)

/-- The most levels of a term in a list; a product counts from its factors on. -/
def termNestings : List Expr → Nat
  | [] => 0
  | t :: ts => max (nesting t - if t.isProduct then 1 else 0) (termNestings ts)

end

/-- The number of levels of a tree that stands as a term. -/
def termNesting (t : Expr) : Nat := t.nesting - if t.isProduct then 1 else 0

/-- The number of levels of a tree that stands as an exponent or an argument. -/
def sumNesting (x : Expr) : Nat := x.nesting - if x.isSum || x.isProduct then 1 else 0

variable {k : Nat}

theorem nestings_le (fs : List Expr) : nestings fs ≤ k ↔ ∀ f ∈ fs, nesting f ≤ k := by
  induction fs with
  | nil => simp [nestings]
  | cons f fs ih => simp [nestings, Nat.max_le, ih]

theorem termNestings_le (ts : List Expr) : termNestings ts ≤ k ↔ ∀ t ∈ ts, termNesting t ≤ k := by
  induction ts with
  | nil => simp [termNestings]
  | cons t ts ih => simp only [termNestings, Nat.max_le, ih, List.forall_mem_cons, termNesting]

theorem towers_le (fs : List Expr) : towers fs ≤ k ↔ ∀ f ∈ fs, tower f ≤ k := by
  induction fs with
  | nil => simp [towers]
  | cons f fs ih => simp [towers, Nat.max_le, ih]

@[simp] theorem nesting_rat (q : Rat) : nesting (rat q) = 0 := rfl

@[simp] theorem termNesting_rat (q : Rat) : termNesting (rat q) = 0 := rfl

@[simp] theorem sumNesting_rat (q : Rat) : sumNesting (rat q) = 0 := rfl

theorem nesting_mul (fs : List Expr) : nesting (mul fs) = termNesting (mul fs) + 1 := rfl

theorem nesting_add (ts : List Expr) : nesting (add ts) = sumNesting (add ts) + 1 := rfl

theorem termNesting_mul_le (fs : List Expr) :
    termNesting (mul fs) ≤ k ↔ 1 ≤ k ∧ ∀ f ∈ fs, nesting f ≤ k := by
  show max 1 (nestings fs) + 1 - 1 ≤ k ↔ _
  rw [Nat.add_sub_cancel, Nat.max_le, nestings_le]

theorem sumNesting_add_le (ts : List Expr) :
    sumNesting (add ts) ≤ k ↔ 1 ≤ k ∧ ∀ t ∈ ts, termNesting t ≤ k := by
  show max 1 (termNestings ts) + 1 - 1 ≤ k ↔ _
  rw [Nat.add_sub_cancel, Nat.max_le, termNestings_le]

theorem nesting_pow_le (b x : Expr) :
    nesting (pow b x) ≤ k ↔
      1 ≤ k ∧ (nesting b + if b.isPower then 1 else 0) ≤ k ∧ sumNesting x + 1 + tower b ≤ k := by
  show max (max 1 _) (sumNesting x + 1 + tower b) ≤ k ↔ _
  rw [Nat.max_le, Nat.max_le, and_assoc]

theorem termNesting_eq {t : Expr} (h : t.isProduct = false) : termNesting t = nesting t := by
  simp [termNesting, h]

theorem sumNesting_le_termNesting (x : Expr) : sumNesting x ≤ termNesting x := by
  unfold sumNesting termNesting
  split <;> split <;> simp_all

theorem termNesting_le_nesting (x : Expr) : termNesting x ≤ nesting x := Nat.sub_le _ _

theorem nesting_le_sumNesting (x : Expr) : nesting x ≤ sumNesting x + 1 := by
  unfold sumNesting
  split <;> omega

theorem termNesting_le_sumNesting (x : Expr) : termNesting x ≤ sumNesting x + 1 :=
  Nat.le_trans (termNesting_le_nesting x) (nesting_le_sumNesting x)

theorem eq_rat_of_sumNesting {x : Expr} (h : sumNesting x = 0) : ∃ q, x = rat q := by
  cases x with
  | rat q => exact ⟨q, rfl⟩
  | add ts =>
    have := ((sumNesting_add_le ts).1 (Nat.le_of_eq h)).1
    omega
  | mul fs =>
    have := ((termNesting_mul_le fs).1 (Nat.le_of_eq h)).1
    omega
  | pow b x =>
    have := ((nesting_pow_le b x).1 (Nat.le_of_eq h)).1
    omega
  | fn f x => simp [sumNesting, nesting, isSum, isProduct] at h
  | pi | e | i | infinity | undefined | var => simp [sumNesting, nesting, isSum, isProduct] at h

/-- A tower of exponents counts as that many levels. -/
theorem tower_le_sumNesting (x : Expr) : tower x ≤ sumNesting x := by
  cases x with
  | pow b x =>
    have := ((nesting_pow_le b x).1 (Nat.le_refl _)).2.2
    show tower b + 1 ≤ nesting (pow b x)
    omega
  | mul fs =>
    show towers fs ≤ termNesting (mul fs)
    refine (towers_le fs).2 fun f hf => ?_
    have hfactor := ((termNesting_mul_le fs).1 (Nat.le_refl _)).2 f hf
    have := tower_le_sumNesting f
    have := sumNesting_le_termNesting f
    have := termNesting_le_nesting f
    omega
  | rat | pi | e | i | infinity | undefined | var | add | fn => exact Nat.zero_le _
termination_by x
decreasing_by
  have := List.sizeOf_lt_of_mem hf
  simp
  omega

theorem nesting_ofFactors_le {fs : List Expr} (h : ∀ f ∈ fs, nesting f ≤ k) (hk : 1 ≤ k) :
    termNesting (ofFactors fs) ≤ k := by
  unfold ofFactors
  split
  · exact Nat.le_trans (termNesting_le_nesting _) (h _ (List.mem_singleton_self _))
  · exact (termNesting_mul_le _).2 ⟨hk, h⟩

/-! ## Depth -/

theorem depthAll_le (xs : List Expr) : depthAll xs ≤ k ↔ ∀ x ∈ xs, depth x ≤ k := by
  induction xs with
  | nil => simp [depthAll]
  | cons x xs ih => simp [depthAll, Nat.max_le, ih]

/-- By how much the depth of a tree may exceed three times its number of levels. A product has the least, so that it can
stand in a sum, and a power the most, because it adds nothing to the levels of its base. -/
def slack : Expr → Nat
  | mul _ => 0
  | pow _ _ => 2
  | _ => 1

theorem slack_le (x : Expr) : slack x ≤ 2 := by
  cases x <;> simp [slack]

/-- What a bound on the depth of an operand says of it in the places in which it may stand. -/
theorem depth_le_in_place {x : Expr} (h : depth x ≤ 3 * nesting x + slack x) :
    depth x ≤ 3 * termNesting x + 3 ∧ depth x ≤ 3 * sumNesting x + 4 ∧
      depth x ≤ 3 * (nesting x + if x.isPower then 1 else 0) + 1 := by
  cases x with
  | mul fs =>
    have hslack : depth (mul fs) ≤ 3 * nesting (mul fs) + 0 := h
    have := nesting_mul fs
    show _ ∧ _ ≤ 3 * termNesting (mul fs) + 4 ∧ _ ≤ 3 * nesting (mul fs) + 1
    omega
  | add ts =>
    have hslack : depth (add ts) ≤ 3 * nesting (add ts) + 1 := h
    have := nesting_add ts
    show _ ≤ 3 * nesting (add ts) + 3 ∧ _ ∧ _ ≤ 3 * nesting (add ts) + 1
    omega
  | pow b x =>
    have hslack : depth (pow b x) ≤ 3 * nesting (pow b x) + 2 := h
    show _ ≤ 3 * nesting (pow b x) + 3 ∧ _ ≤ 3 * nesting (pow b x) + 4 ∧
      _ ≤ 3 * (nesting (pow b x) + 1) + 1
    omega
  | fn f x =>
    have hslack : depth (fn f x) ≤ 3 * nesting (fn f x) + 1 := h
    show _ ≤ 3 * nesting (fn f x) + 3 ∧ _ ≤ 3 * nesting (fn f x) + 4 ∧ _ ≤ 3 * nesting (fn f x) + 1
    omega
  | rat | pi | e | i | infinity | undefined | var => simp [depth, isPower]

/-- The depth of a tree is at most three times its number of levels, up to the slack. -/
theorem depth_le (x : Expr) : depth x ≤ 3 * nesting x + slack x := by
  cases x with
  | add ts =>
    have hterms := ((sumNesting_add_le ts).1 (Nat.le_refl _)).2
    have hdepth : depthAll ts ≤ 3 * sumNesting (add ts) + 3 := by
      refine (depthAll_le ts).2 fun t ht => ?_
      have := (depth_le_in_place (depth_le t)).1
      have := hterms t ht
      omega
    show depthAll ts + 1 ≤ 3 * (sumNesting (add ts) + 1) + 1
    omega
  | mul fs =>
    have hfactors := ((termNesting_mul_le fs).1 (Nat.le_refl _)).2
    have hdepth : depthAll fs ≤ 3 * termNesting (mul fs) + 2 := by
      refine (depthAll_le fs).2 fun f hf => ?_
      have := depth_le f
      have := slack_le f
      have := hfactors f hf
      omega
    show depthAll fs + 1 ≤ 3 * (termNesting (mul fs) + 1) + 0
    omega
  | pow b x =>
    obtain ⟨-, hbase, hexponent⟩ := (nesting_pow_le b x).1 (Nat.le_refl _)
    have := (depth_le_in_place (depth_le b)).2.2
    have := (depth_le_in_place (depth_le x)).2.1
    show max (depth b) (depth x) + 1 ≤ 3 * nesting (pow b x) + 2
    omega
  | fn f x =>
    have := (depth_le_in_place (depth_le x)).2.1
    show depth x + 1 ≤ 3 * (sumNesting x + 2) + 1
    omega
  | rat | pi | e | i | infinity | undefined | var => simp [depth, slack]
termination_by x
decreasing_by
  · have := List.sizeOf_lt_of_mem ht
    simp only [add.sizeOf_spec]
    omega
  · have := List.sizeOf_lt_of_mem hf
    simp only [mul.sizeOf_spec]
    omega
  all_goals
    simp only [pow.sizeOf_spec, fn.sizeOf_spec]
    omega

end SymbolicSolver.Expr
