import SymbolicSolver.Expr.Apply
import SymbolicSolver.Expr.Substitution
import SymbolicSolver.Proofs.Canonical.Order
import SymbolicSolver.Proofs.Canonical.Product

/-!
# Canonical forms

What the sums, products and whole powers of rationals, variables, `π`, `e` and function calls look like. `Canonical`
says so node by node: in a product, a coefficient other than zero and one and then sorted factors with different bases;
in a sum, sorted terms that differ in more than their coefficient; in a power, an exponent other than zero and one, and
a base that is neither a product nor a power. A canonical expression that is no sum is determined by its coefficient
and its factors.
-/

namespace SymbolicSolver.Expr

/-! ## The form -/

/-- What a factor is a power of. -/
def factorBase : Expr → Expr
  | pow b _ => b
  | f => f

/-- The factors of a canonical product behind its coefficient. -/
structure FactorRow (fs : List Expr) : Prop where
  notRat : ∀ f ∈ fs, f.rat? = none
  notProduct : ∀ f ∈ fs, f.isProduct = false
  bases : (fs.map factorBase).Nodup
  sorted : SortedBy compareFactors fs

/-- The terms of a canonical sum. -/
structure TermRow (ts : List Expr) : Prop where
  notSum : ∀ t ∈ ts, t.isSum = false
  notZero : ∀ t ∈ ts, t.isZero = false
  rests : (ts.map fun t => t.splitCoeff.2).Nodup
  sorted : SortedBy compareTerms ts

/-- The bases that stand under an exponent; a power of a rational stands only where it is too large. -/
structure PowerBase (b : Expr) : Prop where
  notProduct : b.isProduct = false
  notPower : ∀ c x, b ≠ pow c x
  notZero : b.isZero = false
  notOne : b.isOne = false

/-- Canonical expressions. A call is canonical if the function finds no other form for it. -/
inductive Canonical : Expr → Prop
  | rat (q : Rat) : Canonical (rat q)
  | var (s : String) : Canonical (var s)
  | pi : Canonical pi
  | e : Canonical e
  | call {f : Func} {x : Expr} (hx : Canonical x) (h : apply f x = fn f x) : Canonical (fn f x)
  | power {b : Expr} {n : Int} (hb : Canonical b) (hbase : PowerBase b) (h0 : n ≠ 0) (h1 : n ≠ 1)
      (hlarge : ∀ q, b = .rat q → powerFits q n = false) : Canonical (pow b (.rat n))
  | product {fs : List Expr} (hfs : ∀ f ∈ fs, Canonical f) (hrow : FactorRow fs)
      (hlen : 2 ≤ fs.length) : Canonical (mul fs)
  | scaled {c : Rat} {fs : List Expr} (hfs : ∀ f ∈ fs, Canonical f) (hrow : FactorRow fs)
      (hc0 : c ≠ 0) (hc1 : c ≠ 1) (hne : fs ≠ []) (hlone : ∀ ts, fs ≠ [add ts]) :
      Canonical (mul (.rat c :: fs))
  | sum {ts : List Expr} (hts : ∀ t ∈ ts, Canonical t) (hrow : TermRow ts) (hlen : 2 ≤ ts.length) :
      Canonical (add ts)

/-! ## Coefficient and factors -/

/-- Factors with a coefficient in front, unless it is one. -/
def times (c : Rat) (fs : List Expr) : Expr :=
  ofFactors (if c ≠ 1 ∨ fs = [] then rat c :: fs else fs)

theorem assemble_eq_times (c : Rat) (fs : List Expr) :
    assemble c fs false = times c (sortFactors fs) := by
  simp [assemble, times]

@[simp] theorem times_nil (c : Rat) : times c [] = rat c := by
  simp [times, ofFactors]

@[simp] theorem times_one_singleton (f : Expr) : times 1 [f] = f := by
  simp [times, ofFactors]

@[simp] theorem times_one_cons_cons (f g : Expr) (fs : List Expr) :
    times 1 (f :: g :: fs) = mul (f :: g :: fs) := by
  simp [times, ofFactors]

theorem times_one_of_length {fs : List Expr} (h : 2 ≤ fs.length) : times 1 fs = mul fs := by
  obtain ⟨f, gs, rfl⟩ := List.exists_cons_of_length_pos (by omega : 0 < fs.length)
  cases gs with
  | nil => simp at h
  | cons g gs => exact times_one_cons_cons f g gs

theorem times_of_ne_one {c : Rat} (hc : c ≠ 1) {fs : List Expr} (hfs : fs ≠ []) :
    times c fs = mul (rat c :: fs) := by
  cases fs with
  | nil => exact absurd rfl hfs
  | cons f fs => simp [times, ofFactors, hc]

/-- The factors of a canonical expression that is no sum. -/
structure Monomial (fs : List Expr) : Prop where
  canonical : ∀ f ∈ fs, Canonical f
  row : FactorRow fs
  notLone : ∀ ts, fs ≠ [add ts]

theorem Monomial.nil : Monomial [] :=
  ⟨by simp, ⟨by simp, by simp, by simp, .nil⟩, by simp⟩

/-- Factors make a canonical expression with every coefficient, except a lone sum. -/
theorem canonical_times {c : Rat} {fs : List Expr} (hfs : ∀ f ∈ fs, Canonical f)
    (hrow : FactorRow fs) (hc : c ≠ 0) (hlone : c = 1 ∨ ∀ ts, fs ≠ [add ts]) :
    Canonical (times c fs) := by
  by_cases hc1 : c = 1
  · subst hc1
    match fs with
    | [] => simpa using .rat 1
    | [f] => simpa using hfs f
    | f :: g :: fs =>
      rw [times_one_cons_cons]
      exact .product hfs hrow (by simp)
  · by_cases hne : fs = []
    · rw [hne, times_nil]
      exact .rat c
    · rw [times_of_ne_one hc1 hne]
      exact .scaled hfs hrow hc hc1 hne (hlone.resolve_left hc1)

theorem Monomial.canonical_times {fs : List Expr} (h : Monomial fs) {c : Rat} (hc : c ≠ 0) :
    Canonical (times c fs) :=
  Expr.canonical_times h.canonical h.row hc (.inr h.notLone)

theorem eq_rat_of_rat? {x : Expr} {q : Rat} (h : x.rat? = some q) : x = rat q := by
  unfold rat? at h
  split at h
  · exact congrArg rat (Option.some.inj h)
  · cases h

theorem isZero_of_rat?_eq_none {x : Expr} (h : x.rat? = none) : x.isZero = false := by
  unfold isZero
  split
  · cases h
  · rfl

theorem isOne_of_rat?_eq_none {x : Expr} (h : x.rat? = none) : x.isOne = false := by
  unfold isOne
  split
  · cases h
  · rfl

theorem splitCoeff_of_not {x : Expr} (hr : x.rat? = none) (hp : x.isProduct = false) :
    x.splitCoeff = (1, x) := by
  unfold splitCoeff
  split
  · cases hr
  · cases hp
  · rfl

/-- Coefficient and factors can be told apart. -/
theorem splitCoeff_times {fs : List Expr} (hr : ∀ f ∈ fs, f.rat? = none) (hp : ∀ f ∈ fs, f.isProduct = false)
    (c : Rat) : (times c fs).splitCoeff = (c, times 1 fs) := by
  match fs with
  | [] => simp [splitCoeff, one]
  | [f] =>
    by_cases hc : c = 1
    · rw [hc, times_one_singleton, splitCoeff_of_not (hr f (by simp)) (hp f (by simp))]
    · rw [times_of_ne_one hc (by simp), times_one_singleton]
      rfl
  | f :: g :: fs =>
    have hf := hr f (by simp)
    by_cases hc : c = 1
    · rw [hc, times_one_cons_cons]
      cases f <;> simp_all [splitCoeff, rat?]
    · rw [times_of_ne_one hc (by simp), times_one_cons_cons]
      rfl

theorem withCoeff_times {fs : List Expr} (hr : ∀ f ∈ fs, f.rat? = none) (hp : ∀ f ∈ fs, f.isProduct = false)
    (c : Rat) : withCoeff c (times 1 fs) = times c fs := by
  have hof (x : Expr) (hr : x.isOne = false) (hp : x.isProduct = false) (hc : c ≠ 1) :
      withCoeff c x = mul [rat c, x] := by
    rw [withCoeff, hr, if_neg Bool.false_ne_true, if_neg hc]
    rintro fs rfl
    cases hp
  match fs with
  | [] => simp [withCoeff, isOne]
  | [f] =>
    have hone := isOne_of_rat?_eq_none (hr f (by simp))
    rw [times_one_singleton]
    by_cases hc : c = 1
    · simp [withCoeff, hone, hc]
    · rw [times_of_ne_one hc (by simp), hof f hone (hp f (by simp)) hc]
  | f :: g :: fs =>
    rw [times_one_cons_cons]
    by_cases hc : c = 1
    · simp [withCoeff, isOne, hc]
    · simp [withCoeff, isOne, hc, times_of_ne_one hc]

theorem Monomial.splitCoeff_times {fs : List Expr} (h : Monomial fs) (c : Rat) :
    (times c fs).splitCoeff = (c, times 1 fs) :=
  Expr.splitCoeff_times h.row.notRat h.row.notProduct c

theorem Monomial.withCoeff_times {fs : List Expr} (h : Monomial fs) (c : Rat) :
    withCoeff c (times 1 fs) = times c fs :=
  Expr.withCoeff_times h.row.notRat h.row.notProduct c

/-- A canonical expression other than a sum consists of a coefficient and factors. -/
theorem Canonical.monomial {x : Expr} (h : Canonical x) (hs : x.isSum = false) :
    ∃ c fs, x = times c fs ∧ Monomial fs ∧ (x.isZero = false → c ≠ 0) := by
  have hsingle {f : Expr} (hf : Canonical f) (hr : f.rat? = none) (hp : f.isProduct = false)
      (hs : f.isSum = false) : ∃ c fs, f = times c fs ∧ Monomial fs ∧ (f.isZero = false → c ≠ 0) := by
    refine ⟨1, [f], (times_one_singleton f).symm, ⟨?_, ⟨?_, ?_, ?_, ?_⟩, ?_⟩, fun _ => one_ne_zero⟩
    · simpa using hf
    · simpa using hr
    · simpa using hp
    · simp
    · exact List.pairwise_singleton _ _
    · rintro ts hts
      obtain rfl := (List.cons.inj hts).1
      simp [isSum] at hs
  cases h with
  | rat q => exact ⟨q, [], (times_nil q).symm, .nil, by simp [isZero]⟩
  | var s => exact hsingle (.var s) rfl rfl rfl
  | pi => exact hsingle .pi rfl rfl rfl
  | e => exact hsingle .e rfl rfl rfl
  | call hx h => exact hsingle (.call hx h) rfl rfl rfl
  | power hb hbase h0 h1 hl => exact hsingle (.power hb hbase h0 h1 hl) rfl rfl rfl
  | @product fs hfs hrow hlen =>
    refine ⟨1, fs, ?_, ⟨hfs, hrow, ?_⟩, fun _ => one_ne_zero⟩
    · exact (times_one_of_length hlen).symm
    · rintro ts rfl
      simp at hlen
  | @scaled c fs hfs hrow hc0 hc1 hne hlone =>
    exact ⟨c, fs, (times_of_ne_one hc1 hne).symm, ⟨hfs, hrow, hlone⟩, fun _ => hc0⟩
  | sum => simp [isSum] at hs

theorem Canonical.ne_undefined {x : Expr} (h : Canonical x) : x ≠ undefined := by
  rintro rfl
  cases h

theorem Canonical.ne_infinity {x : Expr} (h : Canonical x) : x ≠ infinity := by
  rintro rfl
  cases h

theorem Canonical.infinitySign? {x : Expr} (h : Canonical x) : x.infinitySign? = none := by
  unfold Expr.infinitySign?
  split
  · cases h
  · -- neither as factors nor behind a coefficient
    cases h with
    | product hfs => exact absurd rfl (hfs infinity (by simp)).ne_infinity
    | scaled hfs => exact absurd rfl (hfs infinity (by simp)).ne_infinity
  · rfl

end SymbolicSolver.Expr
