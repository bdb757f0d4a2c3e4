import Mathlib.Tactic.LinearCombination
import SymbolicSolver.Expr.Apply
import SymbolicSolver.Proofs.Canonical.Product
import SymbolicSolver.Proofs.Canonical.Tidy

/-!
# Readings on the unit circle

Every variable `v` is read as a rational, and `sin v`, `cos v` and `tan v` as the coordinates of a rational point
of the unit circle and their quotient. Nothing else that a function applies to has a value. The canonical
operations lead from tidy trees with a value to tidy trees with a value; both parts are needed later, since some
rules are right for tidy trees only.
-/

namespace SymbolicSolver.Expr

/-- A rational for every variable, and a rational point of the unit circle for the angle that it stands for. -/
structure CirclePoint where
  var : String → Rat
  sin : String → Rat
  cos : String → Rat
  on_circle : ∀ v, sin v ^ 2 + cos v ^ 2 = 1

/-- The value of a circular function at a variable. -/
def CirclePoint.apply? (p : CirclePoint) (f : Func) (v : String) : Option Rat :=
  match f with
  | .sin => some (p.sin v)
  | .cos => some (p.cos v)
  | .tan => if p.cos v = 0 then none else some (p.sin v / p.cos v)
  | _ => none

/-- Variables are read as their rationals, and sine, cosine and tangent of a variable by its point; the tangent has
no value where the cosine is zero, and other applications have none at all. -/
def CirclePoint.reading (p : CirclePoint) : Reading where
  var := p.var
  fn? f
    | .var v => p.apply? f v
    | _ => none

variable {p : CirclePoint}

@[simp] theorem CirclePoint.reading_var (v : String) : p.reading.var v = p.var v := rfl

@[simp] theorem eval_sin (v : String) : eval p.reading (fn .sin (var v)) = p.sin v := rfl

@[simp] theorem eval_cos (v : String) : eval p.reading (fn .cos (var v)) = p.cos v := rfl

@[simp] theorem defined_sin (v : String) : Defined p.reading (fn .sin (var v)) := rfl

@[simp] theorem defined_cos (v : String) : Defined p.reading (fn .cos (var v)) := rfl

/-- Only applications to variables have a value. -/
theorem Defined.arg {f : Func} {x : Expr} (h : Defined p.reading (fn f x)) : ∃ v, x = var v := by
  change (p.reading.fn? f x).isSome = true at h
  cases x <;> simp [CirclePoint.reading] at h
  exact ⟨_, rfl⟩

/-- The tangent is the quotient of sine and cosine. -/
theorem eval_tan {v : String} (h : p.cos v ≠ 0) :
    Defined p.reading (fn .tan (var v)) ∧
      eval p.reading (fn .tan (var v)) = p.sin v / p.cos v := by
  simp [Defined, eval, CirclePoint.reading, CirclePoint.apply?, h]

/-! ## Building applications and squares -/

/-- A function of a variable is built as it stands. -/
@[simp] theorem apply_var (f : Func) (v : String) : apply f (var v) = fn f (var v) := by
  obtain ⟨k, hk⟩ := roundsFor_eq (var v).size
  have hspecial : specialValue? f (var v) = none := by cases f <;> rfl
  have hminus : (var v).hasMinus = false := by norm_num [hasMinus, splitCoeff]
  rw [apply, hk, applyWithin, if_neg (by simp), hspecial, hminus, Bool.and_false]
  split
  · rename_i hlog
    rw [hlog]
    rfl
  · cases f <;> rfl

/-! ## Tidy trees with a value -/

/-- A tidy tree that has a value. -/
structure Readable (p : CirclePoint) (x : Expr) : Prop where
  tidy : Tidy x
  defined : Defined p.reading x

/-- `y` is tidy and has the value of `x`. -/
structure Restates (p : CirclePoint) (x y : Expr) : Prop extends Readable p y where
  value : eval p.reading y = eval p.reading x

theorem Readable.self {x : Expr} (h : Readable p x) : Restates p x x := ⟨h, rfl⟩

theorem Restates.trans {x y z : Expr} (hxy : Restates p x y) (hyz : Restates p y z) :
    Restates p x z :=
  ⟨hyz.toReadable, hyz.value.trans hxy.value⟩

theorem Readable.operands {ts : List Expr} (h : Readable p (add ts)) : ∀ t ∈ ts, Readable p t :=
  fun t ht => ⟨((tidy_add ts).1 h.tidy).1 t ht, (defined_add ts).1 h.defined t ht⟩

theorem Readable.factors {x : Expr} (h : Readable p x) : ∀ f ∈ x.factors, Readable p f := by
  cases x with
  | mul fs =>
    exact fun f hf => ⟨((tidy_mul fs).1 h.tidy).1 f hf, (defined_mul fs).1 h.defined f hf⟩
  | _ => simp [Expr.factors, h]

theorem restates_sum {ts : List Expr} (h : ∀ t ∈ ts, Readable p t) :
    Restates p (add ts) (sum ts) := by
  obtain ⟨hs, hv⟩ := sum_keepsValue p.reading ts ((defined_add ts).2 fun t ht => (h t ht).defined)
  exact ⟨⟨sum_tidy fun t ht => (h t ht).tidy, hs⟩, hv⟩

theorem restates_product {fs : List Expr} (h : ∀ f ∈ fs, Readable p f) :
    Restates p (mul fs) (product fs) := by
  obtain ⟨hp, hv⟩ :=
    product_keepsValue p.reading fs ((defined_mul fs).2 fun f hf => (h f hf).defined)
  exact ⟨⟨product_tidy fun f hf => (h f hf).tidy, hp⟩, hv⟩

theorem restates_power {b x : Expr} (hb : Tidy b) (hx : Tidy x)
    (hd : Defined p.reading (pow b x)) : Restates p (pow b x) (power b x) := by
  obtain ⟨hp, hv⟩ := power_keepsValue p.reading b x hd
  exact ⟨⟨power_tidy hb hx, hp⟩, hv⟩

/-- The trees of the second list restate those of the first, place by place. -/
structure RestatesAll (p : CirclePoint) (xs ys : List Expr) : Prop where
  readable : ∀ y ∈ ys, Readable p y
  values : ys.map (eval p.reading) = xs.map (eval p.reading)

theorem RestatesAll.nil : RestatesAll p [] [] := ⟨by simp, rfl⟩

theorem RestatesAll.cons {x y : Expr} {xs ys : List Expr} (h : Restates p x y)
    (hs : RestatesAll p xs ys) : RestatesAll p (x :: xs) (y :: ys) := by
  refine ⟨List.forall_mem_cons.2 ⟨h.toReadable, hs.readable⟩, ?_⟩
  rw [List.map_cons, List.map_cons, h.value, hs.values]

/-- A sum is restated by the canonical sum of restated terms. -/
theorem RestatesAll.sum {ts us : List Expr} (h : RestatesAll p ts us) :
    Restates p (add ts) (Expr.sum us) := by
  have hsum := restates_sum h.readable
  refine ⟨hsum.toReadable, hsum.value.trans ?_⟩
  rw [eval_add, eval_add, h.values]

/-- A product is restated by the canonical product of restated factors. -/
theorem RestatesAll.product {fs gs : List Expr} (h : RestatesAll p fs gs) :
    Restates p (mul fs) (Expr.product gs) := by
  have hprod := restates_product h.readable
  refine ⟨hprod.toReadable, hprod.value.trans ?_⟩
  rw [eval_mul, eval_mul, h.values]

/-- A power of a restated base has the value of the power. -/
theorem Restates.pow {b c : Expr} {n : Rat} (h : Restates p b c)
    (hd : Defined p.reading (pow b (rat n))) :
    Defined p.reading (Expr.pow c (rat n)) ∧
      eval p.reading (Expr.pow c (rat n)) = eval p.reading (Expr.pow b (rat n)) := by
  rw [defined_pow, eval_pow, eval_pow, h.value]
  exact ⟨⟨h.defined, ((defined_pow b n).1 hd).2⟩, rfl⟩

theorem eval_factors (x : Expr) : (x.factors.map (eval p.reading)).prod = eval p.reading x := by
  cases x <;> simp [factors]

theorem Readable.terms {x : Expr} (h : Readable p x) : ∀ t ∈ x.terms, Readable p t := by
  cases x with
  | add ts => exact h.operands
  | _ => simp [Expr.terms, h]

theorem eval_terms (x : Expr) : (x.terms.map (eval p.reading)).sum = eval p.reading x := by
  cases x <;> simp [terms]

end SymbolicSolver.Expr
