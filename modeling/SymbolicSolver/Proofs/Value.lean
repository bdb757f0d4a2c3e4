import Mathlib.Algebra.BigOperators.Group.List.Basic
import Mathlib.Algebra.BigOperators.Ring.List
import Mathlib.Algebra.Field.Rat
import Mathlib.Algebra.GroupWithZero.Basic
import Mathlib.Algebra.Order.Ring.Rat
import Mathlib.Tactic.Linarith
import Mathlib.Tactic.Ring
import SymbolicSolver.Expr.Canonical

/-!
# Exact values

The rational that an expression stands for once its variables, and possibly some function applications, are
read as rationals. Rationals, variables, sums, products and powers with a whole exponent have such a value;
`π`, `e`, `i`, infinity and all other powers have none. The only operation that can fail is a negative power of
zero.

`eval` is total and `Defined` says where it means something. A transformation is right when it *keeps the
value*: wherever the old expression is defined the new one is defined too, with the same value, while it may
be defined at further points. The relation is a preorder that sums, products and powers respect, so a
transformation is treated one node at a time.
-/

namespace SymbolicSolver.Expr

/-- What variables and function applications stand for. -/
structure Reading where
  var : String → Rat
  fn? : Func → Expr → Option Rat

/-- An assignment of rationals to the variables, under which function applications have no value. -/
def Reading.ofVars (ρ : String → Rat) : Reading := ⟨ρ, fun _ _ => none⟩

mutual

/-- The value of an expression where it is defined; zero stands for a missing value. -/
def eval (r : Reading) : Expr → Rat
  | rat q => q
  | var s => r.var s
  | fn f x => (r.fn? f x).getD 0
  | add ts => evalSum r ts
  | mul fs => evalProduct r fs
  | pow b (rat n) => eval r b ^ n.num
  | _ => 0

/-- The sum of the values. -/
def evalSum (r : Reading) : List Expr → Rat
  | [] => 0
  | t :: ts => eval r t + evalSum r ts

/-- The product of the values. -/
def evalProduct (r : Reading) : List Expr → Rat
  | [] => 1
  | f :: fs => eval r f * evalProduct r fs

end

mutual

/-- Whether an expression has a value: every leaf has one, exponents are whole numbers, and no zero is raised
to a negative power. -/
def Defined (r : Reading) : Expr → Prop
  | rat _ => True
  | var _ => True
  | fn f x => (r.fn? f x).isSome = true
  | add ts => AllDefined r ts
  | mul fs => AllDefined r fs
  | pow b (rat n) => Defined r b ∧ n.den = 1 ∧ (0 ≤ n ∨ eval r b ≠ 0)
  | _ => False

/-- Whether every expression of a list has a value. -/
def AllDefined (r : Reading) : List Expr → Prop
  | [] => True
  | x :: xs => Defined r x ∧ AllDefined r xs

end

/-- The value at an assignment of rationals to the variables. -/
abbrev valueAt (ρ : String → Rat) (x : Expr) : Rat := eval (.ofVars ρ) x

/-- Whether an expression has a value at an assignment. Only rationals, variables, sums, products and whole
powers of such expressions have one anywhere. -/
abbrev DefinedAt (ρ : String → Rat) (x : Expr) : Prop := Defined (.ofVars ρ) x

variable {r : Reading}

/-! ## The value of each node -/

theorem evalSum_eq (ts : List Expr) : evalSum r ts = (ts.map (eval r)).sum := by
  induction ts with
  | nil => rfl
  | cons t ts ih => simp [evalSum, ih]

theorem evalProduct_eq (fs : List Expr) : evalProduct r fs = (fs.map (eval r)).prod := by
  induction fs with
  | nil => rfl
  | cons f fs ih => simp [evalProduct, ih]

theorem allDefined_iff (xs : List Expr) : AllDefined r xs ↔ ∀ x ∈ xs, Defined r x := by
  induction xs with
  | nil => simp [AllDefined]
  | cons x xs ih => simp [AllDefined, ih]

@[simp] theorem eval_rat (q : Rat) : eval r (rat q) = q := rfl

@[simp] theorem eval_var (s : String) : eval r (var s) = r.var s := rfl

@[simp] theorem eval_add (ts : List Expr) : eval r (add ts) = (ts.map (eval r)).sum :=
  evalSum_eq ts

@[simp] theorem eval_mul (fs : List Expr) : eval r (mul fs) = (fs.map (eval r)).prod :=
  evalProduct_eq fs

@[simp] theorem eval_pow (b : Expr) (n : Rat) : eval r (pow b (rat n)) = eval r b ^ n.num :=
  rfl

@[simp] theorem defined_rat (q : Rat) : Defined r (rat q) := trivial

@[simp] theorem defined_var (s : String) : Defined r (var s) := trivial

@[simp] theorem defined_add (ts : List Expr) : Defined r (add ts) ↔ ∀ t ∈ ts, Defined r t :=
  allDefined_iff ts

@[simp] theorem defined_mul (fs : List Expr) : Defined r (mul fs) ↔ ∀ f ∈ fs, Defined r f :=
  allDefined_iff fs

@[simp] theorem defined_pow (b : Expr) (n : Rat) :
    Defined r (pow b (rat n)) ↔ Defined r b ∧ n.den = 1 ∧ (0 ≤ n ∨ eval r b ≠ 0) :=
  Iff.rfl

/-- A power has a value only if its exponent is a rational leaf. -/
theorem Defined.exponent {b x : Expr} (h : Defined r (pow b x)) : ∃ n, x = rat n := by
  cases x <;> simp [Defined] at h
  exact ⟨_, rfl⟩

@[simp] theorem not_defined_pi : ¬ Defined r pi := not_false

@[simp] theorem not_defined_e : ¬ Defined r e := not_false

@[simp] theorem not_defined_i : ¬ Defined r i := not_false

@[simp] theorem not_defined_infinity : ¬ Defined r infinity := not_false

@[simp] theorem not_defined_undefined : ¬ Defined r undefined := not_false

theorem eval_add_cons (t : Expr) (ts : List Expr) :
    eval r (add (t :: ts)) = eval r t + eval r (add ts) := rfl

theorem defined_add_cons (t : Expr) (ts : List Expr) :
    Defined r (add (t :: ts)) ↔ Defined r t ∧ Defined r (add ts) := Iff.rfl

theorem eval_mul_cons (f : Expr) (fs : List Expr) :
    eval r (mul (f :: fs)) = eval r f * eval r (mul fs) := rfl

theorem defined_mul_cons (f : Expr) (fs : List Expr) :
    Defined r (mul (f :: fs)) ↔ Defined r f ∧ Defined r (mul fs) := Iff.rfl

theorem eval_mul_append (xs ys : List Expr) :
    eval r (mul (xs ++ ys)) = eval r (mul xs) * eval r (mul ys) := by simp

theorem defined_mul_append (xs ys : List Expr) :
    Defined r (mul (xs ++ ys)) ↔ Defined r (mul xs) ∧ Defined r (mul ys) := by
  simp only [defined_mul, List.mem_append, or_imp, forall_and]

theorem Defined.ne_undefined {x : Expr} (h : Defined r x) : x ≠ undefined := by
  rintro rfl
  exact not_defined_undefined h

/-- A whole power of a value; the exponent as a rational and as an integer say the same. -/
@[simp] theorem eval_pow_int (b : Expr) (n : Int) :
    eval r (pow b (rat n)) = eval r b ^ n := by
  rw [eval_pow, Rat.num_intCast]

@[simp] theorem defined_pow_int (b : Expr) (n : Int) :
    Defined r (pow b (rat n)) ↔ Defined r b ∧ (0 ≤ n ∨ eval r b ≠ 0) := by
  simp [defined_pow, Rat.den_intCast]

/-- The whole number that a defined exponent is. -/
theorem Defined.exponent_int {b x : Expr} (h : Defined r (pow b x)) : ∃ n : Int, x = rat n := by
  obtain ⟨n, rfl⟩ := h.exponent
  rw [defined_pow] at h
  exact ⟨n.num, by rw [Rat.coe_int_num_of_den_eq_one h.2.1]⟩

theorem smallInt?_eq_some {x : Expr} {n : Int} (h : x.smallInt? = some n) : x = rat n := by
  cases x <;> simp [smallInt?] at h
  rename_i q
  obtain ⟨⟨hint, -⟩, hn⟩ := h
  rw [← hn, Rat.coe_int_num_of_den_eq_one (by simpa [Rational.isInt] using hint)]

/-! ## Keeping the value -/

/-- Wherever `x` is defined, `y` is defined and has the same value. -/
def KeepsValue (r : Reading) (x y : Expr) : Prop :=
  Defined r x → Defined r y ∧ eval r y = eval r x

namespace KeepsValue

theorem refl (r : Reading) (x : Expr) : KeepsValue r x x := fun h => ⟨h, rfl⟩

theorem trans {x y z : Expr} (hxy : KeepsValue r x y) (hyz : KeepsValue r y z) :
    KeepsValue r x z := by
  intro hx
  obtain ⟨hy, hvy⟩ := hxy hx
  obtain ⟨hz, hvz⟩ := hyz hy
  exact ⟨hz, hvz.trans hvy⟩

/-- Operands that keep their values one by one keep the sum. -/
theorem add_cons {x y : Expr} {xs ys : List Expr} (h : KeepsValue r x y)
    (hs : KeepsValue r (add xs) (add ys)) : KeepsValue r (add (x :: xs)) (add (y :: ys)) := by
  intro hd
  rw [defined_add_cons] at hd ⊢
  obtain ⟨hy, hvy⟩ := h hd.1
  obtain ⟨hys, hvys⟩ := hs hd.2
  exact ⟨⟨hy, hys⟩, by rw [eval_add_cons, eval_add_cons, hvy, hvys]⟩

theorem add_perm {xs ys : List Expr} (h : xs.Perm ys) : KeepsValue r (add xs) (add ys) := by
  intro hd
  rw [defined_add] at hd ⊢
  exact ⟨fun y hy => hd y (h.mem_iff.2 hy), by rw [eval_add, eval_add, (h.map (eval r)).sum_eq]⟩

/-- Operands that keep their values one by one keep the product. -/
theorem mul_cons {x y : Expr} {xs ys : List Expr} (h : KeepsValue r x y)
    (hs : KeepsValue r (mul xs) (mul ys)) : KeepsValue r (mul (x :: xs)) (mul (y :: ys)) := by
  intro hd
  rw [defined_mul_cons] at hd ⊢
  obtain ⟨hy, hvy⟩ := h hd.1
  obtain ⟨hys, hvys⟩ := hs hd.2
  exact ⟨⟨hy, hys⟩, by rw [eval_mul_cons, eval_mul_cons, hvy, hvys]⟩

theorem mul_append {xs xs' ys ys' : List Expr} (hx : KeepsValue r (mul xs) (mul xs'))
    (hy : KeepsValue r (mul ys) (mul ys')) :
    KeepsValue r (mul (xs ++ ys)) (mul (xs' ++ ys')) := by
  intro hd
  rw [defined_mul_append] at hd ⊢
  obtain ⟨hdx, hvx⟩ := hx hd.1
  obtain ⟨hdy, hvy⟩ := hy hd.2
  exact ⟨⟨hdx, hdy⟩, by rw [eval_mul_append, eval_mul_append, hvx, hvy]⟩

theorem mul_perm {xs ys : List Expr} (h : xs.Perm ys) : KeepsValue r (mul xs) (mul ys) := by
  intro hd
  rw [defined_mul] at hd ⊢
  exact ⟨fun y hy => hd y (h.mem_iff.2 hy), by rw [eval_mul, eval_mul, (h.map (eval r)).prod_eq]⟩

theorem mul_one (xs : List Expr) : KeepsValue r (mul xs) (mul (xs ++ [rat 1])) := by
  intro hd
  exact ⟨(defined_mul_append _ _).2 ⟨hd, by simp⟩, by simp⟩

/-- The factors of an inner product may stand in its place. -/
theorem mul_flatten (xs ys : List Expr) :
    KeepsValue r (mul (mul xs :: ys)) (mul (xs ++ ys)) := by
  intro hd
  rw [defined_mul_cons] at hd
  exact ⟨(defined_mul_append _ _).2 hd, by rw [eval_mul_cons, eval_mul_append]⟩

/-- Two rationals may be multiplied. -/
theorem mul_rat_rat (p q : Rat) (xs : List Expr) :
    KeepsValue r (mul (rat p :: rat q :: xs)) (mul (rat (p * q) :: xs)) := by
  intro hd
  simp only [defined_mul_cons, eval_mul_cons, eval_rat] at hd ⊢
  exact ⟨⟨defined_rat _, hd.2.2⟩, by ring⟩

theorem pow {b c : Expr} (h : KeepsValue r b c) (x : Expr) :
    KeepsValue r (Expr.pow b x) (Expr.pow c x) := by
  intro hd
  obtain ⟨n, rfl⟩ := hd.exponent
  rw [defined_pow] at hd
  obtain ⟨hc, hv⟩ := h hd.1
  rw [defined_pow, eval_pow, eval_pow, hv]
  exact ⟨⟨hc, hd.2⟩, rfl⟩

end KeepsValue

end SymbolicSolver.Expr
