import Mathlib.Tactic.Linarith
import SymbolicSolver.Proofs.Canonical.Product

/-!
# Numbers and infinities

The canonical sum and product of rationals and infinities are those of the extended rationals: infinities of one sign
absorb numbers, and infinities of both signs have no sum; a product with an infinity has the sign of its factors, and
none if a factor is zero. The reciprocal of an infinity is zero.
-/

namespace SymbolicSolver

/-- A rational or an infinity. -/
inductive Extended where
  | number (q : ℚ)
  | posInf
  | negInf

namespace Extended

/-- The expression that stands for it. -/
def expr : Extended → Expr
  | number q => .rat q
  | posInf => .infinity
  | negInf => .negInfinity

/-- The infinity with the sign of a number other than zero. -/
def signed (c : ℚ) : Extended := if 0 < c then posInf else negInf

/-- The flat factors of the expression. -/
def flatFactors : Extended → List Expr
  | number q => [.rat q]
  | posInf => [.infinity]
  | negInf => [.rat (-1), .infinity]

/-- The number that is meant, or the sign of the infinity. -/
def coeff : Extended → ℚ
  | number q => q
  | posInf => 1
  | negInf => -1

/-- Whether it is an infinity. -/
def isInfinite : Extended → Bool
  | number _ => false
  | _ => true

/-- The sum, which infinities of both signs do not have. -/
def add? : Extended → Extended → Option Extended
  | number p, number q => some (number (p + q))
  | number _, l => some l
  | l, number _ => some l
  | posInf, posInf => some posInf
  | negInf, negInf => some negInf
  | _, _ => none

/-- The product, which zero and an infinity do not have. -/
def mul? (l m : Extended) : Option Extended :=
  if l.isInfinite || m.isInfinite then
    if l.coeff * m.coeff = 0 then none else some (signed (l.coeff * m.coeff))
  else some (number (l.coeff * m.coeff))

/-- A product of numbers is a number, and one with an infinity is infinite if no factor is zero. -/
theorem mul?_eq_some {l m s : Extended} (h : l.mul? m = some s) :
    (l.isInfinite = false ∧ m.isInfinite = false ∧ s = number (l.coeff * m.coeff)) ∨
      ((l.isInfinite = true ∨ m.isInfinite = true) ∧ l.coeff * m.coeff ≠ 0 ∧ s = signed (l.coeff * m.coeff)) := by
  unfold mul? at h
  split at h
  · rename_i hinf
    obtain ⟨hne, h⟩ := Option.ite_none_left_eq_some.1 h
    exact .inr ⟨by simpa using hinf, hne, (Option.some.inj h).symm⟩
  · rename_i hinf
    obtain ⟨hl, hm⟩ : l.isInfinite = false ∧ m.isInfinite = false := by simpa using hinf
    exact .inl ⟨hl, hm, (Option.some.inj h).symm⟩

/-- The sum of a list. -/
def sum? (ls : List Extended) : Option Extended := ls.foldr (fun l s => s.bind (add? l)) (some (number 0))

/-- The product of a list. -/
def product? (ls : List Extended) : Option Extended := ls.foldr (fun l p => p.bind (mul? l)) (some (number 1))

@[simp] theorem sum?_nil : sum? [] = some (number 0) := rfl

@[simp] theorem sum?_cons (l : Extended) (ls : List Extended) : sum? (l :: ls) = (sum? ls).bind (add? l) := rfl

@[simp] theorem product?_nil : product? [] = some (number 1) := rfl

@[simp] theorem product?_cons (l : Extended) (ls : List Extended) :
    product? (l :: ls) = (product? ls).bind (mul? l) := rfl

/-! ## Parts -/

/-- The number among summands. -/
def summand : Extended → ℚ
  | number q => q
  | _ => 0

/-- Whether it is the positive infinity. -/
def isPos : Extended → Bool
  | posInf => true
  | _ => false

/-- Whether it is the negative infinity. -/
def isNeg : Extended → Bool
  | negInf => true
  | _ => false

/-- A sum is told from its rational part and the infinities that occur. -/
theorem sum?_eq (ls : List Extended) : sum? ls =
    if ls.any isPos && ls.any isNeg then none
    else if ls.any isPos then some posInf
    else if ls.any isNeg then some negInf
    else some (number (ls.map summand).sum) := by
  induction ls with
  | nil => rfl
  | cons l ls ih =>
    rw [sum?_cons, ih]
    cases l <;> cases hp : ls.any isPos <;> cases hn : ls.any isNeg <;> simp [isPos, isNeg, summand, add?, hp, hn]

theorem signed_of_pos {c : ℚ} (hc : 0 < c) : signed c = posInf := if_pos hc

theorem signed_of_neg {c : ℚ} (hc : c < 0) : signed c = negInf := if_neg hc.le.not_gt

@[simp] theorem isInfinite_signed (c : ℚ) : (signed c).isInfinite = true := by
  unfold signed
  split <;> rfl

/-- Only the sign of a factor of an infinity matters. -/
theorem signed_mul_coeff {c : ℚ} (hc : c ≠ 0) (d : ℚ) :
    (d * (signed c).coeff = 0 ↔ d * c = 0) ∧ signed (d * (signed c).coeff) = signed (d * c) := by
  rcases lt_or_gt_of_ne hc with hc | hc
  · rw [signed_of_neg hc, coeff]
    refine ⟨by simp [hc.ne], ?_⟩
    have hiff : 0 < d * -1 ↔ 0 < d * c := by
      rw [mul_neg_one, neg_pos]
      exact ⟨fun hd => mul_pos_of_neg_of_neg hd hc, fun h => neg_of_mul_pos_left h hc.le⟩
    unfold signed
    simp only [hiff]
  · rw [signed_of_pos hc, coeff]
    refine ⟨by simp [hc.ne'], ?_⟩
    unfold signed
    simp only [mul_one, mul_pos_iff_of_pos_right hc]

/-- A product is told from its coefficient and whether an infinity occurs. -/
theorem product?_eq (ls : List Extended) : product? ls =
    if ls.any isInfinite then
      if (ls.map coeff).prod = 0 then none else some (signed (ls.map coeff).prod)
    else some (number (ls.map coeff).prod) := by
  induction ls with
  | nil => rfl
  | cons l ls ih =>
    rw [product?_cons, ih, List.any_cons, List.map_cons, List.prod_cons]
    generalize (ls.map coeff).prod = c
    cases hls : ls.any isInfinite
    · simp [mul?, isInfinite, coeff]
    · by_cases hc : c = 0
      · simp [hc]
      · obtain ⟨hzero, hsign⟩ := signed_mul_coeff hc l.coeff
        simp [mul?, hc, hzero, hsign]

/-! ## Calculating -/

/-- A whole power. Zero has no negative one, and an infinity has no zeroth one. -/
def power? (n : ℤ) : Extended → Option Extended
  | number q => if q = 0 ∧ n < 0 then none else some (number (q ^ n))
  | l => if n = 0 then none else if n < 0 then some (number 0) else some (signed (l.coeff ^ n))

variable {l m v : Extended} {ls ms : List Extended} {c : ℚ}

@[simp] theorem number_zero_add? (l : Extended) : add? (number 0) l = some l := by cases l <;> simp [add?]

@[simp] theorem add?_number_zero (l : Extended) : add? l (number 0) = some l := by cases l <;> simp [add?]

@[simp] theorem number_one_mul? (l : Extended) : mul? (number 1) l = some l := by
  cases l <;> simp [mul?, isInfinite, coeff, signed]

@[simp] theorem mul?_number_one (l : Extended) : mul? l (number 1) = some l := by
  cases l <;> simp [mul?, isInfinite, coeff, signed]

/-- A sum is determined by the infinities that occur and by the numbers. -/
theorem sum?_congr (hpos : ls.any isPos = ms.any isPos) (hneg : ls.any isNeg = ms.any isNeg)
    (hnumbers : (ls.map summand).sum = (ms.map summand).sum) : sum? ls = sum? ms := by
  rw [sum?_eq, sum?_eq, hpos, hneg, hnumbers]

theorem sum?_perm (h : ls.Perm ms) : sum? ls = sum? ms :=
  sum?_congr h.any_eq h.any_eq (h.map _).sum_eq

/-- Summands may be put together first. -/
theorem sum?_append (h : sum? ls = some l) (ms : List Extended) : sum? (ls ++ ms) = sum? (l :: ms) := by
  rw [sum?_eq] at h
  cases hp : ls.any isPos <;> cases hn : ls.any isNeg <;> simp only [hp, hn, Bool.and_self, Bool.and_false, Bool.false_and,
    Bool.false_eq_true, if_false, if_true, Option.some.injEq, reduceCtorEq] at h <;> subst h <;>
    rw [sum?_eq, sum?_eq] <;> simp [hp, hn, isPos, isNeg, summand]

/-- A multiple of a number is a number, and a nonzero multiple of an infinity is an infinity. -/
theorem number_mul?_eq_some (h : mul? (number c) l = some v) :
    (l.isInfinite = false ∧ v = number (c * l.coeff)) ∨ (l.isInfinite = true ∧ c * l.coeff ≠ 0 ∧ v = signed (c * l.coeff)) := by
  rcases mul?_eq_some h with ⟨-, hl, hv⟩ | ⟨hl, hne, hv⟩
  · exact .inl ⟨hl, hv⟩
  · exact .inr ⟨hl.resolve_left Bool.false_ne_true, hne, hv⟩

theorem number_mul?_isSome (hc : c ≠ 0) (l : Extended) : ∃ v, mul? (number c) l = some v := by
  cases l <;> simp [mul?, isInfinite, coeff, hc]

theorem summand_of_mul? (h : mul? (number c) l = some v) : v.summand = c * l.summand := by
  rcases number_mul?_eq_some h with ⟨hl, rfl⟩ | ⟨hl, -, rfl⟩
  · cases l with
    | number q => rfl
    | _ => cases hl
  · have hzero {k : Extended} (hk : k.isInfinite = true) : k.summand = 0 := by
      cases k with
      | number q => cases hk
      | _ => rfl
    rw [hzero (isInfinite_signed _), hzero hl, mul_zero]

/-- A multiple is a certain infinity if what is multiplied is infinite and the signs agree. -/
theorem eq_signed_iff {ε : ℚ} (hε : ε = 1 ∨ ε = -1) (h : mul? (number c) l = some v) :
    v = signed ε ↔ l.isInfinite = true ∧ 0 < ε * (c * l.coeff) := by
  rcases number_mul?_eq_some h with ⟨hl, rfl⟩ | ⟨hl, hne, rfl⟩
  · have hinf := isInfinite_signed ε
    constructor
    · intro heq
      rw [← heq] at hinf
      cases hinf
    · rintro ⟨hl', -⟩
      rw [hl] at hl'
      cases hl'
  · rw [hl]
    rcases hε with rfl | rfl <;> rcases lt_or_gt_of_ne hne with hlt | hgt
    · simp [signed_of_neg hlt, signed_of_pos one_pos, hlt.le]
    · simp [signed_of_pos hgt, signed_of_pos one_pos, hgt]
    · simp [signed_of_neg hlt, signed_of_neg (neg_one_lt_zero : (-1 : ℚ) < 0), hlt]
    · simp [signed_of_pos hgt, signed_of_neg (neg_one_lt_zero : (-1 : ℚ) < 0), hgt.le]

/-! ### Numbers beside infinities -/

theorem sum?_notInfinite (h : ∀ m ∈ ls, m.isInfinite = false) : sum? ls = some (number (ls.map summand).sum) := by
  have hpos : ls.any isPos = false := List.any_eq_false.2 fun m hm => by
    have hfinite := h m hm
    cases m <;> simp_all [isInfinite, isPos]
  have hneg : ls.any isNeg = false := List.any_eq_false.2 fun m hm => by
    have hfinite := h m hm
    cases m <;> simp_all [isInfinite, isNeg]
  rw [sum?_eq, hpos, hneg]
  rfl

theorem product?_notInfinite (h : ∀ m ∈ ls, m.isInfinite = false) : product? ls = some (number (ls.map coeff).prod) := by
  have hfinite : ls.any isInfinite = false := List.any_eq_false.2 fun m hm => by simp [h m hm]
  rw [product?_eq, hfinite, if_neg Bool.false_ne_true]

theorem power?_notInfinite {n : ℤ} (h : l.isInfinite = false) (hp : power? n l = some m) : m.isInfinite = false := by
  cases l with
  | number q =>
    rw [power?, Option.ite_none_left_eq_some] at hp
    obtain rfl := Option.some.inj hp.2
    rfl
  | _ => cases h

/-- Numbers are absorbed by an infinity. -/
theorem add?_notInfinite (hl : l.isInfinite = true) (hm : m.isInfinite = false) : add? l m = some l ∧ add? m l = some l := by
  cases m with
  | number q => cases l <;> simp_all [add?, isInfinite]
  | _ => cases hm

theorem add?_isInfinite (hl : l.isInfinite = true) (h : add? l m = some v) : v.isInfinite = true := by
  cases l <;> cases m <;> simp only [add?, Option.some.injEq, reduceCtorEq] at h <;> first | (subst h; rfl) | cases hl

theorem sum?_absorb (hl : l.isInfinite = true) (c : ℚ) (ms : List Extended) : sum? (number c :: l :: ms) = sum? (l :: ms) := by
  rw [sum?_cons]
  cases hs : sum? (l :: ms) with
  | none => rfl
  | some v =>
    rw [sum?_cons, Option.bind_eq_some_iff] at hs
    obtain ⟨s, -, hv⟩ := hs
    exact (add?_notInfinite (add?_isInfinite hl hv) rfl).2

end Extended

namespace Expr

open Extended

/-! ## Sums -/

theorem flattenTerms_expr (ls : List Extended) : flattenTerms (ls.map Extended.expr) = ls.map Extended.expr := by
  induction ls with
  | nil => simp [flattenTerms]
  | cons l ls ih => cases l <;> simp [expr, negInfinity, flattenTerms, ih]

theorem insert_expr (g : TermGroups) (l : Extended) : g.insert l.expr =
    ⟨g.constant + l.summand, g.hasPosInfinity || l.isPos, g.hasNegInfinity || l.isNeg, g.groups⟩ := by
  cases l <;> simp [expr, negInfinity, TermGroups.insert, infinitySign?, summand, isPos, isNeg]

theorem insertAll_expr (ls : List Extended) (g : TermGroups) : (ls.map Extended.expr).foldl TermGroups.insert g =
    ⟨g.constant + (ls.map summand).sum, g.hasPosInfinity || ls.any isPos, g.hasNegInfinity || ls.any isNeg,
      g.groups⟩ := by
  induction ls generalizing g with
  | nil => simp
  | cons l ls ih =>
    rw [List.map_cons, List.foldl_cons, ih, insert_expr]
    simp [add_assoc, Bool.or_assoc]

theorem expr_ne_undefined (l : Extended) : l.expr ≠ .undefined := by
  cases l <;> simp [expr, negInfinity]

theorem any_undefined_expr (ls : List Extended) : (ls.map Extended.expr).any (· = .undefined) = false := by
  rw [List.any_eq_false]
  intro x hx
  obtain ⟨l, -, rfl⟩ := List.mem_map.1 hx
  simpa using expr_ne_undefined l

/-- The canonical sum of extended rationals. -/
theorem sum_expr (ls : List Extended) :
    sum (ls.map Extended.expr) = ((sum? ls).map Extended.expr).getD .undefined := by
  have hconst (q : ℚ) : (if q ≠ 0 then ofTerms [rat q] else ofTerms []) = rat q := by
    by_cases hq : q = 0
    · subst hq
      rfl
    · rw [if_pos hq, ofTerms]
  rw [sum, flattenTerms_expr, any_undefined_expr, insertAll_expr, sum?_eq]
  cases ls.any isPos <;> cases ls.any isNeg <;> simp [TermGroups.empty, expr]
  simpa using hconst (ls.map summand).sum

/-! ## Products -/

theorem flattenFactors_expr (ls : List Extended) :
    flattenFactors (ls.map Extended.expr) = ls.flatMap Extended.flatFactors := by
  induction ls with
  | nil => simp [flattenFactors]
  | cons l ls ih => cases l <;> simp [expr, negInfinity, flattenFactors, Extended.flatFactors, ih]

theorem insertBase_expr (g : FactorGroups (Expr × Expr)) (l : Extended) :
    l.flatFactors.foldl FactorGroups.insertBase g = ⟨g.coeff * l.coeff, g.hasInfinity || l.isInfinite, g.others⟩ := by
  cases l <;> simp [Extended.flatFactors, FactorGroups.insertBase, coeff, isInfinite]

theorem insertAllBases_expr (ls : List Extended) (g : FactorGroups (Expr × Expr)) :
    (ls.flatMap Extended.flatFactors).foldl FactorGroups.insertBase g =
      ⟨g.coeff * (ls.map coeff).prod, g.hasInfinity || ls.any isInfinite, g.others⟩ := by
  induction ls generalizing g with
  | nil => simp
  | cons l ls ih =>
    rw [List.flatMap_cons, List.foldl_append, insertBase_expr, ih]
    simp [mul_assoc, Bool.or_assoc]

theorem infiniteProduct_nil (c : ℚ) (hc : c ≠ 0) : infiniteProduct c [] = (signed c).expr := by
  have hsign : (Expr.mul []).constantSign? = some 1 := by decide +kernel
  rw [infiniteProduct, List.all_nil, if_pos rfl, hsign]
  rcases lt_or_gt_of_ne hc with hc | hc
  · simp [signed_of_neg hc, hc, expr]
  · simp [signed_of_pos hc, hc.le.not_gt, expr]

/-- The canonical product of extended rationals. -/
theorem product_expr (ls : List Extended) :
    product (ls.map Extended.expr) = ((product? ls).map Extended.expr).getD .undefined := by
  have hdefined : (ls.flatMap Extended.flatFactors).any (· = .undefined) = false := by
    rw [List.any_eq_false]
    intro x hx
    obtain ⟨l, -, hx⟩ := List.mem_flatMap.1 hx
    cases l <;> simp only [Extended.flatFactors, List.mem_cons, List.not_mem_nil, or_false] at hx
    case negInf => rcases hx with rfl | rfl <;> simp
    all_goals simp [hx]
  obtain ⟨k, hk⟩ := roundsFor_eq (sizeAll (ls.map Extended.expr))
  rw [product, hk, productWithin, productStep, flattenFactors_expr, hdefined, product?_eq]
  simp only [collectBases, insertAllBases_expr, one_mul, Bool.false_or, List.map_nil, List.any_nil, collectRebuilt,
    List.foldl_nil, multiplyOut, Bool.false_eq_true, if_false]
  generalize (ls.map coeff).prod = c
  by_cases hc : c = 0
  · cases ls.any isInfinite <;> simp [hc, expr, zero]
  · cases ls.any isInfinite
    · simp [hc, expr, assemble, sortFactors, ofFactors]
    · simp [hc, infiniteProduct_nil]

/-- The reciprocal of an infinity. -/
theorem inverse_infinite {l : Extended} (hl : l.isInfinite = true) : l.expr.inverse = zero := by
  have hsign : (rat (-1)).constantSign? = some (-1) := by decide +kernel
  have hpower (b : Expr) (s : Int) (hb : b.infinitySign? = some s) (hone : b.isOne = false) (hundef : b ≠ .undefined) :
      power b (rat (-1)) = zero := by
    obtain ⟨k, hk⟩ := roundsFor_eq (b.size + (rat (-1)).size)
    rw [power, hk, powerWithin]
    unfold powerStep
    have hexponent : (rat (-1)).isOne = false := by
      simp [isOne]
      norm_num
    rw [if_neg (by simp [hundef]), if_neg (by simp [isZero]), if_neg (by simp [hexponent]), if_neg (by simp [hone]), hb]
    change infiniteBase b (rat (-1)) s = zero
    rw [infiniteBase, hsign]
    rfl
  cases l with
  | number q => cases hl
  | posInf => exact hpower _ 1 rfl rfl (by simp [expr])
  | negInf => exact hpower _ (-1) rfl rfl (by simp [expr, negInfinity])

end Expr

end SymbolicSolver
