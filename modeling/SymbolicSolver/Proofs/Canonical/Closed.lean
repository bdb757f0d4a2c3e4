import SymbolicSolver.Expr.Apply
import SymbolicSolver.Proofs.Canonical.Hereditary

/-!
# What applications keep

A property of trees that the constants have, that canonical sums, products and powers keep and that a tree passes on to
its parts is an *invariant* of the canonical operations. Besides them there are the applications of functions, whose
canonical form may be an exact value made of rationals, roots and `π`, or an expression found inside the argument. An
invariant that an application has as soon as its argument has it is *closed*: canonical application keeps it as well.
That only certain variables occur is closed.
-/

namespace SymbolicSolver.Expr

/-! ## Invariants -/

/-- A property that the constants have, canonical sums, products and powers keep, and parts inherit. -/
structure Invariant (P : Expr → Prop) : Prop where
  rat : ∀ q, P (rat q)
  pi : P pi
  e : P e
  i : P i
  infinity : P infinity
  negInfinity : P negInfinity
  undefined : P undefined
  sum : ∀ {ts}, (∀ t ∈ ts, P t) → P (sum ts)
  product : ∀ {fs}, (∀ f ∈ fs, P f) → P (product fs)
  power : ∀ {b x}, P b → P x → P (power b x)
  add : ∀ {ts}, P (add ts) → ∀ t ∈ ts, P t
  mul : ∀ {fs}, P (mul fs) → ∀ f ∈ fs, P f
  pow : ∀ {b x}, P (pow b x) → P b ∧ P x
  arg : ∀ {f x}, P (fn f x) → P x
  splitCoeff : ∀ {x}, P x → P x.splitCoeff.2

/-- A hereditary property of all constants is an invariant. -/
theorem Hereditary.invariant {P : Expr → Prop} (hP : Hereditary P) (pi : P pi) (e : P e) : Invariant P where
  rat := hP.rat
  pi := pi
  e := e
  i := hP.i
  infinity := hP.infinity
  negInfinity := hP.negInfinity
  undefined := hP.undefined
  sum := hP.sum
  product := hP.product
  power := hP.power
  add := (hP.add _).1
  mul := (hP.mul _).1
  pow := (hP.pow _ _).1
  arg := hP.arg _ _
  splitCoeff := hP.splitCoeff

namespace Invariant

variable {P : Expr → Prop} (hP : Invariant P) {x y : Expr}

include hP

/-! ### Short forms -/

theorem neg (hx : P x) : P (-x) := hP.product (by simpa using ⟨hP.rat (-1), hx⟩)

theorem plus (hx : P x) (hy : P y) : P (x + y) := hP.sum (by simpa using ⟨hx, hy⟩)

theorem minus (hx : P x) (hy : P y) : P (x - y) := hP.plus hx (hP.neg hy)

theorem times (hx : P x) (hy : P y) : P (x * y) := hP.product (by simpa using ⟨hx, hy⟩)

theorem inverse (hx : P x) : P x.inverse := hP.power hx (hP.rat _)

theorem quotient (hx : P x) (hy : P y) : P (x / y) := hP.times hx (hP.inverse hy)

theorem sqrt (hx : P x) : P x.sqrt := hP.power hx (hP.rat _)

theorem terms (hx : P x) : ∀ t ∈ x.terms, P t := by
  cases x with
  | add ts => exact hP.add hx
  | _ => exact fun t ht => List.mem_singleton.1 ht ▸ hx

theorem factors (hx : P x) : ∀ f ∈ x.factors, P f := by
  cases x with
  | mul fs => exact hP.mul hx
  | _ => exact fun f hf => List.mem_singleton.1 hf ▸ hx

theorem exp (hx : P x) : P x.exp := hP.power hP.e hx

theorem rootOver (n d : Nat) : P (rootOver n d) :=
  hP.product (by simpa using ⟨hP.rat _, hP.sqrt (hP.rat n)⟩)

/-! ### Values at special angles -/

theorem sinValue? {k n : Nat} {v : Expr} (h : sinValue? k n = some v) : P v := by
  have hroot := hP.rootOver
  unfold Expr.sinValue? at h
  split at h <;> cases h
  all_goals first | exact hP.rat _ | exact hroot _ _ | exact hP.neg (hroot _ _)

theorem cosValue? {k n : Nat} {v : Expr} (h : cosValue? k n = some v) : P v := by
  have hroot := hP.rootOver
  unfold Expr.cosValue? at h
  split at h <;> cases h
  all_goals first | exact hP.rat _ | exact hroot _ _ | exact hP.neg (hroot _ _)

theorem tanValue? {k n : Nat} {v : Expr} (h : tanValue? k n = some v) : P v := by
  have hroot := hP.rootOver
  have hsqrt : P (Expr.int 3).sqrt := hP.sqrt (hP.rat _)
  unfold Expr.tanValue? at h
  split at h <;> cases h
  all_goals first | exact hP.rat _ | exact hP.undefined | exact hroot _ _ | exact hP.neg (hroot _ _) | skip
  · exact hsqrt
  · exact hP.neg hsqrt

omit hP in
theorem atAngle? {table : Nat → Nat → Option Expr} (htable : ∀ k n v, table k n = some v → P v) {halfTurns : Int}
    {v : Expr} (h : atAngle? table halfTurns x = some v) : P v := by
  obtain ⟨c, -, h⟩ := Option.bind_eq_some_iff.1 h
  exact htable _ _ _ (Option.ite_none_right_eq_some.1 h).2

theorem reciprocal (hx : P x) : P (reciprocal x) := by
  unfold Expr.reciprocal
  split
  · exact hP.undefined
  · exact hP.inverse hx

theorem circularValue? {f : Func} {v : Expr} (h : circularValue? f x = some v) : P v := by
  have hsin {w : Expr} : Expr.atAngle? Expr.sinValue? 2 x = some w → P w := Invariant.atAngle? fun _ _ _ => hP.sinValue?
  have hcos {w : Expr} : Expr.atAngle? Expr.cosValue? 2 x = some w → P w := Invariant.atAngle? fun _ _ _ => hP.cosValue?
  have htan {w : Expr} : Expr.atAngle? Expr.tanValue? 1 x = some w → P w := Invariant.atAngle? fun _ _ _ => hP.tanValue?
  unfold Expr.circularValue? at h
  split at h
  · exact hsin h
  · exact hcos h
  · exact htan h
  · obtain ⟨w, hw, rfl⟩ := Option.map_eq_some_iff.1 h
    exact hP.reciprocal (hsin hw)
  · obtain ⟨w, hw, rfl⟩ := Option.map_eq_some_iff.1 h
    exact hP.reciprocal (hcos hw)
  · obtain ⟨w, hw, rfl⟩ := Option.map_eq_some_iff.1 h
    split
    · exact hP.rat 0
    · exact hP.reciprocal (htan hw)
  · cases h

/-! ### Other special values -/

theorem piOver (n : Nat) : P (piOver n) := hP.product (by simpa using ⟨hP.rat _, hP.pi⟩)

theorem valueAtInfinity? {f : Func} {s : Int} {v : Expr} (h : valueAtInfinity? f s = some v) : P v := by
  have hsigned {w : Expr} (hw : P w) : P (if s < 0 then -w else w) := by
    split
    · exact hP.neg hw
    · exact hw
  unfold Expr.valueAtInfinity? at h
  dsimp only at h
  split at h <;> (try cases h)
  · exact hsigned (hP.piOver 2)
  · exact hsigned (hP.rat 0)
  · exact hsigned (hP.rat 1)
  · exact hsigned hP.infinity
  · exact hP.infinity

theorem valueAtRational? {f : Func} {q : Rat} {v : Expr} (h : valueAtRational? f q = some v) : P v := by
  have hpi (n : Int) (d : Nat) : P (Expr.product [frac n d, Expr.pi]) :=
    hP.product (by simpa using ⟨hP.rat _, hP.pi⟩)
  unfold Expr.valueAtRational? at h
  split at h <;> cases h
  all_goals first | exact hpi _ _ | exact hP.pi | exact hP.rat _

theorem specialValue? {f : Func} {v : Expr} (h : specialValue? f x = some v) : P v := by
  unfold Expr.specialValue? at h
  split at h
  · exact hP.circularValue? h
  · unfold Expr.inverseValue? at h
    split at h
    · exact hP.valueAtInfinity? h
    · obtain ⟨q, -, h⟩ := Option.bind_eq_some_iff.1 h
      exact hP.valueAtRational? h

theorem undone? {f : Func} {u : Expr} (hx : P x) (h : undone? f x = some u) : P u := by
  cases x with
  | fn g v =>
    simp only [Expr.undone?, Option.ite_none_right_eq_some, Option.some.injEq] at h
    exact h.2 ▸ hP.arg hx
  | _ => cases h

end Invariant

/-! ## Applications -/

/-- An invariant that applications to defined arguments have if the arguments have it. -/
structure Closed (P : Expr → Prop) : Prop extends Invariant P where
  fn : ∀ {f x}, P x → x ≠ .undefined → P (.fn f x)

namespace Closed

variable {P : Expr → Prop} (hP : Closed P) {x : Expr}

include hP

theorem logPositive (q : Rat) : P (logPositive q) := by
  have hcall (r : Rat) : P (Expr.fn .log (Expr.rat r)) := hP.fn (hP.rat r) (by simp)
  unfold Expr.logPositive
  split
  · exact hP.rat 0
  · split
    · exact hP.neg (hcall _)
    · exact hcall q

theorem logarithm (hx : P x) (hdef : x ≠ .undefined) : P (logarithm x) := by
  unfold Expr.logarithm
  split
  · split
    · exact hP.negInfinity
    · split
      · have hturn : P (Expr.product [Expr.i, Expr.pi]) := hP.product (by simpa using ⟨hP.i, hP.pi⟩)
        exact hP.sum (by simpa using ⟨hP.logPositive _, hturn⟩)
      · exact hP.logPositive _
  · exact hP.rat 1
  · exact hP.infinity
  · exact (hP.pow hx).2
  · exact hP.fn hx hdef

theorem applyWithin (n : Nat) (f : Func) (hx : P x) : P (applyWithin n f x) := by
  induction n generalizing x with
  | zero =>
    rw [Expr.applyWithin]
    split
    · exact hP.undefined
    · exact hP.fn hx ‹_›
  | succ n ih =>
    rw [Expr.applyWithin]
    split
    · exact hP.undefined
    · rename_i hdef
      have hplain : P ((Expr.undone? f x).getD (Expr.fn f x)) := by
        cases h : Expr.undone? f x with
        | none => exact hP.fn hx hdef
        | some u => exact hP.undone? hx h
      split
      · exact hP.logarithm hx hdef
      · split
        · exact hP.specialValue? ‹_›
        · dsimp only
          split
          · -- a minus sign is taken out of the argument
            split
            · exact ih (hP.neg hx)
            · exact hP.neg (ih (hP.neg hx))
            · exact hplain
          · exact hplain

theorem apply (f : Func) (hx : P x) : P (apply f x) := hP.applyWithin _ f hx

end Closed

theorem invariant_varsIn {p : String → Prop} : Invariant (VarsIn p) := hereditary_varsIn.invariant trivial trivial

theorem closed_varsIn {p : String → Prop} : Closed (VarsIn p) where
  toInvariant := invariant_varsIn
  fn h _ := h

end SymbolicSolver.Expr
