import SymbolicSolver.Proofs.Simplify.Plain

/-!
# Canonical forms of one expression

Expansion, common denominators and cancelling build sums, products and whole powers only. On an expression with a
value they lead to canonical expressions, or fail visibly as the undefined value, whatever the expression itself looks
like, and on what they lead to the trigonometric identities change nothing.
-/

namespace SymbolicSolver.Expr

variable {p : String → Prop} {x y : Expr}

/-- A canonical expression is built from its own parts. -/
theorem Canonical.built (h : Canonical x) : Built x := by
  induction h with
  | rat q => exact .rat q
  | var s => exact .var s
  | pi => exact .pi
  | e => exact .e
  | call hx h ih => exact h ▸ .call ih h
  | @power b n hb hbase h0 h1 hlarge ih =>
    rw [← power_base (.power hb hbase h0 h1 hlarge)]
    exact ih.power n
  | product hfs hrow hlen ih =>
    rw [← product_factors hfs hrow hlen]
    exact .product ih
  | scaled hfs hrow hc0 hc1 hne hlone ih =>
    rw [← product_scaled hfs hrow hc0 hc1 hne hlone]
    exact .product (List.forall_mem_cons.2 ⟨.rat _, ih⟩)
  | sum hts hrow hlen ih =>
    rw [← sum_terms hts hrow hlen]
    exact .sum ih

theorem Canonical.terms (h : Canonical x) : ∀ t ∈ x.terms, Canonical t := by
  cases h with
  | sum hts => exact hts
  | rat q => exact fun t ht => List.mem_singleton.1 ht ▸ .rat q
  | var s => exact fun t ht => List.mem_singleton.1 ht ▸ .var s
  | pi => exact fun t ht => List.mem_singleton.1 ht ▸ .pi
  | e => exact fun t ht => List.mem_singleton.1 ht ▸ .e
  | call hx h => exact fun t ht => List.mem_singleton.1 ht ▸ .call hx h
  | power hb hbase h0 h1 hl => exact fun t ht => List.mem_singleton.1 ht ▸ .power hb hbase h0 h1 hl
  | product hfs hrow hlen => exact fun t ht => List.mem_singleton.1 ht ▸ .product hfs hrow hlen
  | scaled hfs hrow h0 h1 hne hl => exact fun t ht => List.mem_singleton.1 ht ▸ .scaled hfs hrow h0 h1 hne hl

namespace Built

theorem terms (h : Built x) : ∀ t ∈ x.terms, Built t := by
  rcases h.canonical with rfl | hx
  · exact fun t ht => List.mem_singleton.1 ht ▸ h
  · exact fun t ht => (hx.terms t ht).built

theorem plus (hx : Built x) (hy : Built y) : Built (x + y) := .sum (by simpa using ⟨hx, hy⟩)

theorem times (hx : Built x) (hy : Built y) : Built (x * y) := .product (by simpa using ⟨hx, hy⟩)

theorem quotient (hx : Built x) (hy : Built y) : Built (x / y) := hx.times (Postfix.built_inverse hy)

/-! ## Expansion -/

theorem distribute (hx : Built x) (hy : Built y) : Built (distribute x y) := by
  unfold Expr.distribute
  split
  · exact hx.times hy
  · refine .sum fun t ht => ?_
    obtain ⟨a, ha, ht⟩ := List.mem_flatMap.1 ht
    obtain ⟨b, hb, rfl⟩ := List.mem_map.1 ht
    exact (hx.terms a ha).times (hy.terms b hb)

theorem foldl_distribute {fs : List Expr} (h : ∀ f ∈ fs, Built f) (hx : Built x) :
    Built (fs.foldl Expr.distribute x) := by
  induction fs generalizing x with
  | nil => exact hx
  | cons f fs ih =>
    obtain ⟨hf, hfs⟩ := List.forall_mem_cons.1 h
    exact ih hfs (hx.distribute hf)

theorem expandedPower (h : Built x) (n : Nat) : Built (expandedPower x n) := by
  induction n with
  | zero => exact h
  | succ n ih => exact ih.distribute h

theorem expandPower (hx : Built x) (n : Int) : Built (expandPower x (.rat n)) := by
  unfold Expr.expandPower
  split
  · split
    · split
      · exact hx.expandedPower _
      · exact Postfix.built_inverse (hx.expandedPower _)
    · exact hx.power n
  · exact hx.power n

end Built

mutual

/-- Whatever an expression with a value expands to is built. -/
theorem built_expand {ρ : String → Rat} : ∀ x : Expr, DefinedAt ρ x → Built x.expand
  | rat q, _ => .rat q
  | var s, _ => .var s
  | add ts, h => by
    rw [expand]
    exact .sum (built_expandAll ts ((defined_add ts).1 h))
  | mul fs, h => by
    rw [expand]
    exact .foldl_distribute (built_expandAll fs ((defined_mul fs).1 h)) (.rat 1)
  | pow b x, h => by
    obtain ⟨n, rfl⟩ := h.exponent_int
    exact (built_expand b ((defined_pow_int b n).1 h).1).expandPower n
  | fn f x, h => by simp [Defined, Reading.ofVars] at h
  | pi, h | e, h | i, h | infinity, h | undefined, h => h.elim

theorem built_expandAll {ρ : String → Rat} : ∀ xs : List Expr, (∀ x ∈ xs, DefinedAt ρ x) →
    ∀ y ∈ expandAll xs, Built y
  | [], _ => by simp [expandAll]
  | x :: xs, h => by
    obtain ⟨hx, hxs⟩ := List.forall_mem_cons.1 h
    rw [expandAll]
    exact List.forall_mem_cons.2 ⟨built_expand x hx, built_expandAll xs hxs⟩

end

/-! ## Fractions -/

/-- Both sides of a fraction are built. -/
structure Built.Sides (f : Fraction) : Prop where
  num : Built f.num
  den : Built f.den

namespace Built.Sides

theorem plus {a b : Fraction} (ha : Sides a) (hb : Sides b) : Sides (a.plus b) := by
  unfold Fraction.plus
  split
  · exact ⟨ha.num.plus hb.num, ha.den⟩
  · split
    · exact ⟨ha.num.plus (hb.num.times ha.den), ha.den⟩
    · split
      · exact ⟨(ha.num.times hb.den).plus hb.num, hb.den⟩
      · exact ⟨(ha.num.times hb.den).plus (hb.num.times ha.den), ha.den.times hb.den⟩

theorem times {a b : Fraction} (ha : Sides a) (hb : Sides b) : Sides (a.times b) :=
  ⟨ha.num.times hb.num, ha.den.times hb.den⟩

theorem powerOf (b : Expr) (n : Int) {base : Fraction} (hb : Sides base) :
    Sides (Fraction.powerOf b (.rat n) base) := by
  unfold Fraction.powerOf
  dsimp only
  rw [Rat.den_intCast, if_pos rfl, if_pos rfl]
  split
  · rw [← Rat.intCast_neg]
    exact ⟨hb.den.power _, hb.num.power _⟩
  · exact ⟨hb.num.power _, hb.den.power _⟩

end Built.Sides

mutual

/-- The sides of an expression with a value over a common denominator. -/
theorem built_toFraction {ρ : String → Rat} : ∀ x : Expr, DefinedAt ρ x → Built.Sides x.toFraction
  | rat _, _ => ⟨.rat _, .rat _⟩
  | var s, _ => ⟨.var s, .rat 1⟩
  | add ts, h => by
    rw [toFraction]
    exact built_sumFractions ts ((defined_add ts).1 h) ⟨.rat 0, .rat 1⟩
  | mul fs, h => by
    rw [toFraction]
    exact built_multiplyFractions fs ((defined_mul fs).1 h) ⟨.rat 1, .rat 1⟩
  | pow b x, h => by
    obtain ⟨n, rfl⟩ := h.exponent_int
    rw [toFraction]
    exact (built_toFraction b ((defined_pow_int b n).1 h).1).powerOf b n
  | fn f x, h => by simp [Defined, Reading.ofVars] at h
  | pi, h | e, h | i, h | infinity, h | undefined, h => h.elim

theorem built_sumFractions {ρ : String → Rat} : ∀ ts : List Expr, (∀ t ∈ ts, DefinedAt ρ t) →
    ∀ {acc : Fraction}, Built.Sides acc → Built.Sides (sumFractions acc ts)
  | [], _, _, hacc => hacc
  | t :: ts, h, _, hacc => by
    obtain ⟨ht, hts⟩ := List.forall_mem_cons.1 h
    rw [sumFractions]
    exact built_sumFractions ts hts (hacc.plus (built_toFraction t ht))

theorem built_multiplyFractions {ρ : String → Rat} : ∀ fs : List Expr, (∀ f ∈ fs, DefinedAt ρ f) →
    ∀ {acc : Fraction}, Built.Sides acc → Built.Sides (multiplyFractions acc fs)
  | [], _, _, hacc => hacc
  | f :: fs, h, _, hacc => by
    obtain ⟨hf, hfs⟩ := List.forall_mem_cons.1 h
    rw [multiplyFractions]
    exact built_multiplyFractions fs hfs (hacc.times (built_toFraction f hf))

end

/-! ## Cancelling -/

theorem polyTerms_built (v : String) (k : Nat) (cs : List Rat) : ∀ t ∈ polyTerms v k cs, Built t := by
  induction cs generalizing k with
  | nil => simp [Expr.polyTerms]
  | cons c cs ih =>
    rw [Expr.polyTerms]
    split
    · exact ih _
    · refine List.forall_mem_cons.2 ⟨.product ?_, ih _⟩
      have hpower : Built (power (var v) (int k)) := (Built.var v).power k
      simpa using ⟨Built.rat c, hpower⟩

theorem ofRatPoly_built (v : String) (f : RatPoly) : Built (ofRatPoly f v) := .sum (polyTerms_built v 0 f.coeffs)

theorem built_cancel? {ρ : String → Rat} (hd : DefinedAt ρ x) (hy : x.cancel? = some y) : Built y := by
  have hsides := toFraction_entire x hd
  have hnum := built_expand x.toFraction.num (hsides.num (.ofVars ρ))
  have hden := built_expand x.toFraction.den (hsides.den (.ofVars ρ))
  simp only [cancel?, Option.ite_none_left_eq_some] at hy
  obtain ⟨-, -, hy⟩ := hy
  split at hy
  · split at hy
    · unfold reduceFraction? at hy
      split at hy
      · cases hy
      · dsimp only at hy
        rw [Option.ite_none_left_eq_some] at hy
        obtain rfl := Option.some.inj hy.2
        exact (ofRatPoly_built _ _).quotient (ofRatPoly_built _ _)
    · obtain rfl := Option.some.inj hy
      exact hnum.quotient hden
  · obtain rfl := Option.some.inj hy
    exact hnum.quotient hden

/-! ## Competing forms -/

mutual

/-- An expression with a value built anew. -/
theorem built_rebuild {ρ : String → Rat} : ∀ x : Expr, DefinedAt ρ x → Built x.rebuild
  | rat q, _ => .rat q
  | var s, _ => .var s
  | add ts, h => by
    rw [rebuild_add]
    exact .sum (built_rebuildAll ts ((defined_add ts).1 h))
  | mul fs, h => by
    rw [rebuild_mul]
    exact .product (built_rebuildAll fs ((defined_mul fs).1 h))
  | pow b x, h => by
    obtain ⟨n, rfl⟩ := h.exponent_int
    exact (built_rebuild b ((defined_pow_int b n).1 h).1).power n
  | fn f x, h => by simp [Defined, Reading.ofVars] at h
  | pi, h | e, h | i, h | infinity, h | undefined, h => h.elim

theorem built_rebuildAll {ρ : String → Rat} : ∀ xs : List Expr, (∀ x ∈ xs, DefinedAt ρ x) →
    ∀ y ∈ xs.map rebuild, Built y
  | [], _ => by simp
  | x :: xs, h => by
    obtain ⟨hx, hxs⟩ := List.forall_mem_cons.1 h
    exact List.forall_mem_cons.2 ⟨built_rebuild x hx, built_rebuildAll xs hxs⟩

end

theorem Built.rebuild_eq (h : Built x) : x.rebuild = x := by
  rcases h.canonical with rfl | hx
  · rfl
  · exact hx.rebuild

/-- No trigonometric identity touches a built expression without functions. -/
theorem Built.trigPasses_eq (h : Built x) (hp : Plain p x) (n : Nat) : trigPasses n x = x := by
  have hpass : trigPass x = x := hp.trigPass_eq.trans h.rebuild_eq
  induction n with
  | zero => rfl
  | succ n ih => simp [trigPasses, hpass]

theorem Built.trigIdentities_eq (h : Built x) (hp : Plain p x) : x.trigIdentities = x := h.trigPasses_eq hp 6

/-- Without functions the trigonometric identities build an expression anew, if anything. -/
theorem built_trigIdentities {ρ : String → Rat} (hd : DefinedAt ρ x) (hp : Plain p x) :
    x.trigIdentities = x ∨ Built x.trigIdentities := by
  have hbuilt := built_rebuild x hd
  rw [trigIdentities, trigPasses, hp.trigPass_eq]
  split
  · rw [hbuilt.trigPasses_eq hp.rebuild]
    exact .inr hbuilt
  · exact .inl rfl

section Forms

variable {ρ : String → Rat} (hd : DefinedAt ρ x) (hp : Plain p x)

include hd hp

/-- The forms of an expression with a value are built, apart from the expression itself. -/
theorem built_of_mem_simplifyForms (h : y ∈ simplifyForms x) : y = x ∨ Built y := by
  simp only [simplifyForms, List.mem_cons, List.mem_append] at h
  rcases h with (rfl | h) | h
  · exact built_trigIdentities hd hp
  · split at h
    · rw [List.mem_singleton.1 h, (built_expand x hd).trigIdentities_eq hp.expand]
      exact .inr (built_expand x hd)
    · cases h
  · split at h
    · rename_i f hf
      have hbuilt := built_cancel? hd hf
      rw [hbuilt.trigIdentities_eq (hp.cancel? hf)] at h
      obtain rfl : y = f := by simpa using h
      exact .inr hbuilt
    · cases h

/-- The expansion is among the forms. -/
theorem expand_mem_forms : x.expand ∈ x :: simplifyForms x := by
  by_cases hx : x.expand = x
  · rw [hx]
    exact List.mem_cons_self
  · simp [simplifyForms, hx, (built_expand x hd).trigIdentities_eq hp.expand]

omit hd hp

theorem cancel?_mem_forms (h : x.cancel? = some y) : y ∈ x :: simplifyForms x := by
  simp [simplifyForms, h]

end Forms

end SymbolicSolver.Expr
