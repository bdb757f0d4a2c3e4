import SymbolicSolver.Expr.Fraction
import SymbolicSolver.Proofs.Canonical.Product

/-!
# Common denominators keep the value

Wherever an expression is defined, the two sides of its fraction are defined, the denominator does not vanish, and
the quotient is the value of the expression.
-/

namespace SymbolicSolver.Expr

variable {r : Reading}

/-! ## The binary operations -/

theorem Defined.plus {a b : Expr} (ha : Defined r a) (hb : Defined r b) :
    Defined r (a + b) ∧ eval r (a + b) = eval r a + eval r b := by
  have h := sum_keepsValue r [a, b] (by simp [ha, hb])
  exact ⟨h.1, h.2.trans (by simp)⟩

theorem Defined.times {a b : Expr} (ha : Defined r a) (hb : Defined r b) :
    Defined r (a * b) ∧ eval r (a * b) = eval r a * eval r b := by
  have h := product_keepsValue r [a, b] (by simp [ha, hb])
  exact ⟨h.1, h.2.trans (by simp)⟩

theorem Defined.power {b : Expr} {n : Int} (hb : Defined r b) (hn : 0 ≤ n ∨ eval r b ≠ 0) :
    Defined r (Expr.power b (rat n)) ∧ eval r (Expr.power b (rat n)) = eval r b ^ n := by
  have h := power_keepsValue r b (rat n) ((defined_pow_int b n).2 ⟨hb, hn⟩)
  exact ⟨h.1, h.2.trans (eval_pow_int b n)⟩

theorem Defined.over {a b : Expr} (ha : Defined r a) (hb : Defined r b) (h0 : eval r b ≠ 0) :
    Defined r (a / b) ∧ eval r (a / b) = eval r a / eval r b := by
  obtain ⟨hinv, hv⟩ := hb.power (n := -1) (.inr h0)
  obtain ⟨hdiv, hvdiv⟩ := ha.times hinv
  refine ⟨hdiv, hvdiv.trans ?_⟩
  rw [hv, zpow_neg_one, div_eq_mul_inv]

/-! ## Fractions -/

/-- The sides of a fraction are defined, and their quotient is the given rational. -/
structure Fraction.HasValue (r : Reading) (f : Fraction) (v : Rat) : Prop where
  num_defined : Defined r f.num
  den_defined : Defined r f.den
  den_ne_zero : eval r f.den ≠ 0
  num_eq : eval r f.num = v * eval r f.den

namespace Fraction.HasValue

theorem whole {x : Expr} (h : Defined r x) : (Fraction.whole x).HasValue r (eval r x) :=
  ⟨h, defined_rat 1, one_ne_zero, (mul_one _).symm⟩

theorem plus {a b : Fraction} {u v : Rat} (ha : a.HasValue r u) (hb : b.HasValue r v) :
    (a.plus b).HasValue r (u + v) := by
  have hab := ha.num_defined.times hb.den_defined
  have hba := hb.num_defined.times ha.den_defined
  have hden := ha.den_defined.times hb.den_defined
  have hone {x : Expr} (hx : x.isOne = true) : eval r x = 1 := by
    cases x <;> simp_all [isOne]
  unfold Fraction.plus
  split
  · rename_i hsame
    have hnum := ha.num_defined.plus hb.num_defined
    refine ⟨hnum.1, ha.den_defined, ha.den_ne_zero, hnum.2.trans ?_⟩
    rw [ha.num_eq, hb.num_eq, hsame, add_mul]
  · split
    · rename_i hb1
      have hnum := ha.num_defined.plus hba.1
      refine ⟨hnum.1, ha.den_defined, ha.den_ne_zero, hnum.2.trans ?_⟩
      rw [hba.2, ha.num_eq, hb.num_eq, hone hb1]
      ring
    · split
      · rename_i ha1
        have hnum := hab.1.plus hb.num_defined
        refine ⟨hnum.1, hb.den_defined, hb.den_ne_zero, hnum.2.trans ?_⟩
        rw [hab.2, ha.num_eq, hb.num_eq, hone ha1]
        ring
      · have hnum := hab.1.plus hba.1
        refine ⟨hnum.1, hden.1, ?_, hnum.2.trans ?_⟩
        · rw [hden.2]
          exact mul_ne_zero ha.den_ne_zero hb.den_ne_zero
        · rw [hab.2, hba.2, hden.2, ha.num_eq, hb.num_eq]
          ring

theorem times {a b : Fraction} {u v : Rat} (ha : a.HasValue r u) (hb : b.HasValue r v) :
    (a.times b).HasValue r (u * v) := by
  have hnum := ha.num_defined.times hb.num_defined
  have hden := ha.den_defined.times hb.den_defined
  unfold Fraction.times
  refine ⟨hnum.1, hden.1, ?_, hnum.2.trans ?_⟩
  · rw [hden.2]
    exact mul_ne_zero ha.den_ne_zero hb.den_ne_zero
  · rw [hden.2, ha.num_eq, hb.num_eq]
    ring

/-- A negative exponent swaps the sides; the base does not vanish there, so neither does its numerator. -/
theorem powerOf {b : Expr} {n : Int} {base : Fraction} (hb : base.HasValue r (eval r b))
    (hn : 0 ≤ n ∨ eval r b ≠ 0) : (Fraction.powerOf b (rat n) base).HasValue r (eval r b ^ n) := by
  have hden (k : Int) := hb.den_defined.power (n := k) (.inr hb.den_ne_zero)
  unfold Fraction.powerOf
  dsimp only
  rw [Rat.den_intCast, if_pos rfl, if_pos rfl]
  split
  · rename_i hneg
    have h0 : eval r b ≠ 0 := hn.resolve_left (by simpa using hneg)
    have hnum0 : eval r base.num ≠ 0 := by
      rw [hb.num_eq]
      exact mul_ne_zero h0 hb.den_ne_zero
    have hnum := hb.num_defined.power (n := -n) (.inr hnum0)
    rw [← Rat.intCast_neg]
    refine ⟨(hden (-n)).1, hnum.1, ?_, (hden (-n)).2.trans ?_⟩
    · rw [hnum.2]
      exact zpow_ne_zero _ hnum0
    · rw [hnum.2, hb.num_eq, mul_zpow, zpow_neg, zpow_neg]
      rw [← mul_assoc, mul_inv_cancel₀ (zpow_ne_zero n h0), one_mul]
  · rename_i hpos
    have hnum := hb.num_defined.power (n := n) (.inl (by simpa using hpos))
    refine ⟨hnum.1, (hden n).1, ?_, hnum.2.trans ?_⟩
    · rw [(hden n).2]
      exact zpow_ne_zero _ hb.den_ne_zero
    · rw [(hden n).2, hb.num_eq, mul_zpow]

end Fraction.HasValue

mutual

/-- The fraction of an expression has its value. -/
theorem toFraction_hasValue : ∀ x : Expr, Defined r x → x.toFraction.HasValue r (eval r x)
  | rat q, _ => by
    have hden : (q.den : Rat) ≠ 0 := by exact_mod_cast q.den_nz
    exact ⟨trivial, trivial, hden, (Rat.mul_den_eq_num q).symm⟩
  | add ts, h => by
    have hstart : Fraction.HasValue r ⟨zero, one⟩ 0 :=
      ⟨trivial, trivial, one_ne_zero, (zero_mul _).symm⟩
    have hsum := sumFractions_hasValue ts ((defined_add ts).1 h) hstart
    rw [zero_add] at hsum
    rw [toFraction, eval_add]
    exact hsum
  | mul fs, h => by
    have hstart : Fraction.HasValue r ⟨one, one⟩ 1 :=
      ⟨trivial, trivial, one_ne_zero, (mul_one _).symm⟩
    have hprod := multiplyFractions_hasValue fs ((defined_mul fs).1 h) hstart
    rw [one_mul] at hprod
    rw [toFraction, eval_mul]
    exact hprod
  | pow b x, h => by
    obtain ⟨n, rfl⟩ := h.exponent_int
    obtain ⟨hb, hn⟩ := (defined_pow_int b n).1 h
    rw [toFraction, eval_pow_int]
    exact (toFraction_hasValue b hb).powerOf hn
  | var v, h => .whole h
  | fn f x, h => .whole h
  | pi, h | e, h | i, h | infinity, h | undefined, h => h.elim

theorem sumFractions_hasValue : ∀ (ts : List Expr), (∀ t ∈ ts, Defined r t) →
    ∀ {acc : Fraction} {v : Rat}, acc.HasValue r v →
      (sumFractions acc ts).HasValue r (v + (ts.map (eval r)).sum)
  | [], _, acc, v, hacc => by simpa [sumFractions] using hacc
  | t :: ts, h, acc, v, hacc => by
    obtain ⟨ht, hts⟩ := List.forall_mem_cons.1 h
    have hrest := sumFractions_hasValue ts hts (hacc.plus (toFraction_hasValue t ht))
    rw [sumFractions, List.map_cons, List.sum_cons, ← add_assoc]
    exact hrest

theorem multiplyFractions_hasValue : ∀ (fs : List Expr), (∀ f ∈ fs, Defined r f) →
    ∀ {acc : Fraction} {v : Rat}, acc.HasValue r v →
      (multiplyFractions acc fs).HasValue r (v * (fs.map (eval r)).prod)
  | [], _, acc, v, hacc => by simpa [multiplyFractions] using hacc
  | f :: fs, h, acc, v, hacc => by
    obtain ⟨hf, hfs⟩ := List.forall_mem_cons.1 h
    have hrest := multiplyFractions_hasValue fs hfs (hacc.times (toFraction_hasValue f hf))
    rw [multiplyFractions, List.map_cons, List.prod_cons, ← mul_assoc]
    exact hrest

end

/-! ## Sides without poles -/

/-- The sides of a fraction have values under every reading. -/
structure Fraction.Entire (f : Fraction) : Prop where
  num : ∀ r, Defined r f.num
  den : ∀ r, Defined r f.den

namespace Fraction.Entire

theorem plus {a b : Fraction} (ha : a.Entire) (hb : b.Entire) : (a.plus b).Entire := by
  have hsum {x y : Expr} (hx : ∀ r, Defined r x) (hy : ∀ r, Defined r y) (r : Reading) : Defined r (x + y) :=
    ((hx r).plus (hy r)).1
  have hprod {x y : Expr} (hx : ∀ r, Defined r x) (hy : ∀ r, Defined r y) (r : Reading) : Defined r (x * y) :=
    ((hx r).times (hy r)).1
  unfold Fraction.plus
  split
  · exact ⟨hsum ha.num hb.num, ha.den⟩
  · split
    · exact ⟨hsum ha.num (hprod hb.num ha.den), ha.den⟩
    · split
      · exact ⟨hsum (hprod ha.num hb.den) hb.num, hb.den⟩
      · exact ⟨hsum (hprod ha.num hb.den) (hprod hb.num ha.den), hprod ha.den hb.den⟩

theorem times {a b : Fraction} (ha : a.Entire) (hb : b.Entire) : (a.times b).Entire :=
  ⟨fun r => ((ha.num r).times (hb.num r)).1, fun r => ((ha.den r).times (hb.den r)).1⟩

/-- Both sides of the base get the absolute value of the exponent. -/
theorem powerOf (b : Expr) (n : Int) {base : Fraction} (hb : base.Entire) :
    (Fraction.powerOf b (rat n) base).Entire := by
  have hpower {x : Expr} (hx : ∀ r, Defined r x) {k : Int} (hk : 0 ≤ k) (r : Reading) :
      Defined r (power x (rat k)) := ((hx r).power (.inl hk)).1
  unfold Fraction.powerOf
  dsimp only
  rw [Rat.den_intCast, if_pos rfl, if_pos rfl]
  split
  · rename_i hneg
    have hle : 0 ≤ -n := by
      have : n < 0 := by simpa using hneg
      omega
    rw [← Rat.intCast_neg]
    exact ⟨hpower hb.den hle, hpower hb.num hle⟩
  · rename_i hpos
    have hle : 0 ≤ n := by simpa using hpos
    exact ⟨hpower hb.num hle, hpower hb.den hle⟩

end Fraction.Entire

mutual

/-- Every negative power goes below the fraction bar, and from there above it: no side keeps one. -/
theorem toFraction_entire {ρ : String → Rat} : ∀ x : Expr, DefinedAt ρ x → x.toFraction.Entire
  | rat q, _ => ⟨fun _ => trivial, fun _ => trivial⟩
  | add ts, h => by
    rw [toFraction]
    exact sumFractions_entire ts ((defined_add ts).1 h) ⟨fun _ => trivial, fun _ => trivial⟩
  | mul fs, h => by
    rw [toFraction]
    exact multiplyFractions_entire fs ((defined_mul fs).1 h) ⟨fun _ => trivial, fun _ => trivial⟩
  | pow b x, h => by
    obtain ⟨n, rfl⟩ := h.exponent_int
    rw [toFraction]
    exact .powerOf b n (toFraction_entire b ((defined_pow_int b n).1 h).1)
  | var v, _ => ⟨fun _ => trivial, fun _ => trivial⟩
  | fn f x, h => by simp [Defined, Reading.ofVars] at h
  | pi, h | e, h | i, h | infinity, h | undefined, h => h.elim

theorem sumFractions_entire {ρ : String → Rat} : ∀ (ts : List Expr), (∀ t ∈ ts, DefinedAt ρ t) →
    ∀ {acc : Fraction}, acc.Entire → (sumFractions acc ts).Entire
  | [], _, _, hacc => hacc
  | t :: ts, h, _, hacc => by
    obtain ⟨ht, hts⟩ := List.forall_mem_cons.1 h
    rw [sumFractions]
    exact sumFractions_entire ts hts (hacc.plus (toFraction_entire t ht))

theorem multiplyFractions_entire {ρ : String → Rat} : ∀ (fs : List Expr), (∀ f ∈ fs, DefinedAt ρ f) →
    ∀ {acc : Fraction}, acc.Entire → (multiplyFractions acc fs).Entire
  | [], _, _, hacc => hacc
  | f :: fs, h, _, hacc => by
    obtain ⟨hf, hfs⟩ := List.forall_mem_cons.1 h
    rw [multiplyFractions]
    exact multiplyFractions_entire fs hfs (hacc.times (toFraction_entire f hf))

end

end SymbolicSolver.Expr
