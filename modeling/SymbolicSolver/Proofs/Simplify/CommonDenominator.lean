import SymbolicSolver.Proofs.Canonical.PolynomialForm
import SymbolicSolver.Proofs.Simplify.Fraction

/-!
# Rational expressions over a common denominator

The two sides of the fraction of a rational expression are polynomial expressions with whole coefficients: a negative
power exchanges the sides of its base, and every combination of fractions takes sums, products and natural powers of
sides only. So no side has a negative power or a fraction in it, and wherever the expression is defined its value is
the quotient of the values of the sides.
-/

namespace SymbolicSolver.Expr

/-- The whole numbers among the rationals. -/
def wholeNumbers : Subring Rat := (Int.castRingHom Rat).range

theorem mem_wholeNumbers {q : Rat} : q ∈ wholeNumbers ↔ q.den = 1 := by
  constructor
  · rintro ⟨n, rfl⟩
    exact Rat.den_intCast n
  · exact fun h => ⟨q.num, Rat.coe_int_num_of_den_eq_one h⟩

/-- Whether the expression is a rational that is no whole number, or a power with a negative exponent. -/
def isFractional : Expr → Bool
  | rat q => q.den ≠ 1
  | pow _ (rat q) => q < 0
  | _ => false

mutual

/-- A polynomial expression with whole coefficients has no fraction and no negative power in it. -/
theorem exist_isFractional : ∀ x : Expr, PolynomialOver wholeNumbers x → x.exist isFractional = false
  | rat q, h => by simpa [exist, isFractional] using mem_wholeNumbers.1 h
  | var s, _ => by simp [exist, isFractional]
  | add ts, h => by
    have hts := existAny_isFractional ts ((builtFrom_add ts).1 h)
    simp [exist, isFractional, hts]
  | mul fs, h => by
    have hfs := existAny_isFractional fs ((builtFrom_mul fs).1 h)
    simp [exist, isFractional, hfs]
  | pow b (rat q), h => by
    have hb := exist_isFractional b h.1
    obtain ⟨hwhole, hnonneg⟩ := h.2
    simp [exist, isFractional, hb, hwhole, hnonneg]

theorem existAny_isFractional : ∀ xs : List Expr, (∀ x ∈ xs, PolynomialOver wholeNumbers x) →
    existAny isFractional xs = false
  | [], _ => rfl
  | x :: xs, h => by
    obtain ⟨hx, hxs⟩ := List.forall_mem_cons.1 h
    rw [existAny, exist_isFractional x hx, existAny_isFractional xs hxs, Bool.or_false]

end

/-- Both sides of a fraction are polynomial expressions with whole coefficients. -/
structure Fraction.Polynomials (f : Fraction) : Prop where
  num : PolynomialOver wholeNumbers f.num
  den : PolynomialOver wholeNumbers f.den

namespace Fraction.Polynomials

theorem plus {a b : Fraction} (ha : a.Polynomials) (hb : b.Polynomials) : (a.plus b).Polynomials := by
  unfold Fraction.plus
  split
  · exact ⟨.plus ha.num hb.num, ha.den⟩
  · split
    · exact ⟨.plus ha.num (.times hb.num ha.den), ha.den⟩
    · split
      · exact ⟨.plus (.times ha.num hb.den) hb.num, hb.den⟩
      · exact ⟨.plus (.times ha.num hb.den) (.times hb.num ha.den), .times ha.den hb.den⟩

theorem times {a b : Fraction} (ha : a.Polynomials) (hb : b.Polynomials) : (a.times b).Polynomials :=
  ⟨.times ha.num hb.num, .times ha.den hb.den⟩

/-- Whatever the sign of the exponent, its absolute value stands over both sides of the base. -/
theorem powerOf (b : Expr) {q : Rat} (hq : q.den = 1) {base : Fraction} (hbase : base.Polynomials) :
    (Fraction.powerOf b (rat q) base).Polynomials := by
  unfold Fraction.powerOf
  dsimp only
  rw [if_pos hq, if_pos hq]
  split
  · rename_i hneg
    have hexp : NaturalExponent (-q) := ⟨hq, neg_nonneg.2 hneg.le⟩
    exact ⟨.power hbase.den hexp, .power hbase.num hexp⟩
  · rename_i hpos
    have hexp : NaturalExponent q := ⟨hq, not_lt.1 hpos⟩
    exact ⟨.power hbase.num hexp, .power hbase.den hexp⟩

end Fraction.Polynomials

mutual

theorem toFraction_polynomials : ∀ x : Expr, IsRational x → x.toFraction.Polynomials
  | rat q, _ => ⟨⟨q.num, rfl⟩, ⟨q.den, Int.cast_natCast q.den⟩⟩
  | var s, _ => ⟨trivial, PolynomialOver.one⟩
  | add ts, h => by
    rw [toFraction]
    exact sumFractions_polynomials ts ((builtFrom_add ts).1 h) ⟨PolynomialOver.zero, PolynomialOver.one⟩
  | mul fs, h => by
    rw [toFraction]
    exact multiplyFractions_polynomials fs ((builtFrom_mul fs).1 h) ⟨PolynomialOver.one, PolynomialOver.one⟩
  | pow b (rat q), h => by
    rw [toFraction]
    exact .powerOf b h.2 (toFraction_polynomials b h.1)

theorem sumFractions_polynomials : ∀ (ts : List Expr), (∀ t ∈ ts, IsRational t) →
    ∀ {acc : Fraction}, acc.Polynomials → (sumFractions acc ts).Polynomials
  | [], _, _, hacc => hacc
  | t :: ts, h, _, hacc => by
    obtain ⟨ht, hts⟩ := List.forall_mem_cons.1 h
    rw [sumFractions]
    exact sumFractions_polynomials ts hts (hacc.plus (toFraction_polynomials t ht))

theorem multiplyFractions_polynomials : ∀ (fs : List Expr), (∀ f ∈ fs, IsRational f) →
    ∀ {acc : Fraction}, acc.Polynomials → (multiplyFractions acc fs).Polynomials
  | [], _, _, hacc => hacc
  | f :: fs, h, _, hacc => by
    obtain ⟨hf, hfs⟩ := List.forall_mem_cons.1 h
    rw [multiplyFractions]
    exact multiplyFractions_polynomials fs hfs (hacc.times (toFraction_polynomials f hf))

end

/-- The fraction of a rational expression: no side has a negative power or a fraction in it, and wherever the
expression is defined the sides are defined, the denominator does not vanish, and their quotient is the value. -/
theorem toFraction_exact (x : Expr) (h : IsRational x) :
    (x.toFraction.num.exist isFractional = false ∧ x.toFraction.den.exist isFractional = false) ∧
      ∀ ρ, DefinedAt ρ x → DefinedAt ρ x.toFraction.num ∧ DefinedAt ρ x.toFraction.den ∧
        valueAt ρ x.toFraction.den ≠ 0 ∧ valueAt ρ x = valueAt ρ x.toFraction.num / valueAt ρ x.toFraction.den := by
  obtain ⟨hnum, hden⟩ := toFraction_polynomials x h
  refine ⟨⟨exist_isFractional _ hnum, exist_isFractional _ hden⟩, fun ρ hx => ?_⟩
  have hvalue := toFraction_hasValue x hx
  refine ⟨hvalue.num_defined, hvalue.den_defined, hvalue.den_ne_zero, ?_⟩
  rw [eq_div_iff hvalue.den_ne_zero]
  exact hvalue.num_eq.symm

/-- The fraction of `1/2 · x⁻² + (y + 1)⁻¹`, taken at `x = 2` and `y = 3`. -/
theorem toFraction_exact_sum :
    let x := add [mul [rat (1 / 2), pow (var "x") (rat (-2))], pow (add [var "y", rat 1]) (rat (-1))]
    let ρ : String → Rat := fun s => if s = "x" then 2 else 3
    IsRational x ∧ DefinedAt ρ x ∧
      (x.toFraction.num.exist isFractional = false ∧ x.toFraction.den.exist isFractional = false) ∧
        valueAt ρ x.toFraction.den ≠ 0 ∧ valueAt ρ x = valueAt ρ x.toFraction.num / valueAt ρ x.toFraction.den := by
  intro x ρ
  have hx : IsRational x := by simp [x, BuiltFrom, AllBuiltFrom]
  have hdef : DefinedAt ρ x := by simp [x, ρ, Reading.ofVars]; norm_num
  obtain ⟨hsides, hvalue⟩ := toFraction_exact x hx
  obtain ⟨-, -, hden, hquot⟩ := hvalue ρ hdef
  exact ⟨hx, hdef, hsides, hden, hquot⟩

end SymbolicSolver.Expr
