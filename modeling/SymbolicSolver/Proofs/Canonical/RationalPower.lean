import Mathlib.Data.Set.List
import SymbolicSolver.Proofs.Canonical.SquareRoot

/-!
# Rational powers are exact

A positive rational to a power that is no whole number is a positive rational times roots of naturals, or stands
unevaluated. The exponent is split into its floor and a proper fraction `p / q`; numerator and denominator are rooted
on their own, the denominator with the complementary fraction so that no root stands below, and the `q`-th power of the
whole is the power of the rational that it should be. The square root of a negative rational takes a power of `i`
in front.
-/

namespace SymbolicSolver.Expr

/-! ## Roots of naturals -/

/-- A root of a natural, as the natural and the exponent. -/
abbrev Root := Nat × Rat

/-- The natural is above one, and the exponent is a proper fraction whose denominator divides `q`. -/
structure Root.Proper (q : Nat) (t : Root) : Prop where
  one_lt : 1 < t.1
  pos : 0 < t.2
  lt_one : t.2 < 1
  den : t.2.den ∣ q

/-- The root as an expression. -/
def Root.factor (t : Root) : Expr := pow (rat t.1) (rat t.2)

/-- The `q`-th power of a product of roots, in which every exponent is whole. -/
def rootsPower (q : Nat) (ts : List Root) : Rat := (ts.map fun t => (t.1 : Rat) ^ ((q : Rat) * t.2).num).prod

theorem rootsPower_append (q : Nat) (ts us : List Root) :
    rootsPower q (ts ++ us) = rootsPower q ts * rootsPower q us := by
  simp [rootsPower]

theorem rootsPower_perm (q : Nat) {ts us : List Root} (h : ts.Perm us) : rootsPower q ts = rootsPower q us :=
  (h.map _).prod_eq

theorem Root.factor_injective : Function.Injective Root.factor := by
  rintro ⟨m, x⟩ ⟨n, y⟩ h
  simpa [Root.factor] using h

/-- A proper fraction as the exponent of a natural above one. -/
theorem Root.proper_mkRat {n p q : Nat} (hn : 1 < n) (hp : 0 < p) (hpq : p < q) : Root.Proper q (n, mkRat p q) := by
  have hq : (0 : Rat) < q := by exact_mod_cast hp.trans hpq
  have hp' : (0 : Rat) < p := by exact_mod_cast hp
  refine ⟨hn, ?_, ?_, ?_⟩
  · rw [Rat.mkRat_eq_div, Int.cast_natCast]
    exact div_pos hp' hq
  · rw [Rat.mkRat_eq_div, Int.cast_natCast, div_lt_one hq]
    exact_mod_cast hpq
  · rw [Rat.den_mkRat, if_neg (hp.trans hpq).ne']
    exact Nat.div_dvd_of_dvd (Nat.gcd_dvd_left _ _)

theorem rootsPower_mkRat (n p : Nat) {q : Nat} (hq : q ≠ 0) : rootsPower q [(n, mkRat p q)] = (n : Rat) ^ p := by
  have hwhole : (q : Rat) * mkRat p q = (p : Int) := by
    rw [Rat.mkRat_eq_div]
    field_simp
  simp [rootsPower, hwhole]

/-- A natural to a proper fraction `p / q`: a positive natural and at most one root, whose `q`-th power is the `p`-th
power of the natural. -/
theorem radical_exact {n p q : Nat} (hn : 0 < n) (hp : 0 < p) (hpq : p < q) :
    ∃ (s : Nat) (ts : List Root), radical n p q = ((s : Rat), ts.map Root.factor) ∧ 0 < s ∧
      (∀ t ∈ ts, t.Proper q) ∧ (s : Rat) ^ q * rootsPower q ts = (n : Rat) ^ p := by
  have hq : 0 < q := hp.trans hpq
  by_cases h1 : n = 1
  · exact ⟨1, [], by simp [radical, h1], one_pos, by simp, by simp [rootsPower, h1]⟩
  · have hn1 : 1 < n := by omega
    cases hroot : exactRoot? q n with
    | some s =>
      have hpow : s ^ q = n := by exact_mod_cast exactRoot?_pow hroot
      have hs : 0 < s := Nat.pos_of_ne_zero fun h0 => by
        rw [h0, zero_pow hq.ne'] at hpow
        exact hn.ne hpow
      refine ⟨s ^ p, [], by simp [radical, h1, hroot, Nat.pow_eq], pow_pos hs p, by simp, ?_⟩
      rw [← hpow]
      push_cast
      rw [rootsPower, List.map_nil, List.prod_nil, mul_one, ← pow_mul, ← pow_mul, mul_comm]
    | none =>
      by_cases hp1 : p = 1
      · -- the perfect part is taken out, and what is left is not one: it would be a perfect power
        subst hp1
        obtain ⟨hs, hpos, hspec⟩ := extractFrom_parts hq.ne' hn
        have hextract := extractPower_natCast (by omega : 2 ≤ q) hn
        generalize (extractFrom q 2 1 n).1 = s at hs hspec hextract
        generalize (extractFrom q 2 1 n).2 = t at hpos hspec hextract
        have ht : 1 < t := by
          by_contra hle
          obtain rfl : t = 1 := by omega
          rw [← hspec, mul_one, exactRoot?_of_pow hq] at hroot
          cases hroot
        refine ⟨s, [(t, mkRat (1 : Nat) q)], by simp [radical, h1, hroot, hextract, Root.factor], hs, ?_, ?_⟩
        · simpa using Root.proper_mkRat ht one_pos hpq
        · rw [rootsPower_mkRat t 1 hq.ne', pow_one, pow_one]
          exact_mod_cast hspec
      · refine ⟨1, [(n, mkRat p q)], by simp [radical, h1, hroot, hp1, Root.factor], one_pos, ?_, ?_⟩
        · simpa using Root.proper_mkRat hn1 hp hpq
        · rw [rootsPower_mkRat n p hq.ne', Nat.cast_one, one_pow, one_mul]

/-! ## Splitting the exponent -/

/-- An exponent that is no whole number is its floor and a proper fraction with the same denominator. -/
theorem exponent_split {x : Rat} (hx : x.den ≠ 1) :
    0 < (x - x.floor).num.natAbs ∧ (x - x.floor).num.natAbs < x.den ∧
      x.num = x.floor * x.den + (x - x.floor).num.natAbs := by
  have hden : (x - x.floor).den = x.den := Rat.sub_intCast_den x x.floor
  have hnum : (x - x.floor).num = x.num - x.floor * x.den := by
    have h := Rat.mul_den_eq_num (x - x.floor)
    rw [hden, sub_mul, Rat.mul_den_eq_num] at h
    exact_mod_cast h.symm
  have hle : (x.floor : Rat) ≤ x := Int.floor_le x
  have hlt : x < x.floor + 1 := Int.lt_floor_add_one x
  have hpos : 0 < x - x.floor := by
    refine sub_pos.2 (lt_of_le_of_ne hle fun heq => hx ?_)
    rw [← heq]
    exact Rat.den_intCast _
  have hnumpos := Rat.num_pos.2 hpos
  have hnumlt : (x - x.floor).num < x.den := by
    rw [← hden, Rat.num_lt_denom_iff]
    linarith
  omega

/-- Numerator and denominator are rooted on their own. -/
theorem positiveRoot_exact {b x : Rat} (hb : 0 < b) (hx : x.den ≠ 1) (hfits : powerFits b x.floor = true) :
    ∃ (c : Rat) (ts : List Root), positiveRoot b x = times c (ts.map Root.factor) ∧ 0 < c ∧ (∀ t ∈ ts, t.Proper x.den) ∧
      c ^ x.den * rootsPower x.den ts = b ^ x.num := by
  obtain ⟨hp, hpq, hsplit⟩ := exponent_split hx
  have hform := positiveRoot_eq_times hfits
  generalize (x - x.floor).num.natAbs = p at hp hpq hsplit hform
  have hnum : 0 < b.num.natAbs := Int.natAbs_pos.2 (Rat.num_ne_zero.2 hb.ne')
  obtain ⟨s, ts, htop, hs, hts, hsvalue⟩ := radical_exact hnum hp hpq
  obtain ⟨u, us, hbottom, hu, hus, huvalue⟩ := radical_exact b.den_pos (Nat.sub_pos_of_lt hpq) (Nat.sub_lt x.den_pos hp)
  simp only [htop, hbottom, ← List.map_append] at hform
  -- the roots in their sorted order
  obtain ⟨rs, hrs⟩ : sortFactors ((ts ++ us).map Root.factor) ∈ Set.range (List.map Root.factor) := by
    rw [Set.range_list_map]
    intro f hf
    obtain ⟨t, -, rfl⟩ := List.mem_map.1 ((List.mergeSort_perm _ _).mem_iff.1 hf)
    exact ⟨t, rfl⟩
  have hperm : rs.Perm (ts ++ us) := by
    rw [← List.map_perm_map_iff Root.factor_injective, hrs]
    exact List.mergeSort_perm _ _
  rw [← hrs, Rational.power_eq_zpow] at hform
  have hs' : (0 : Rat) < s := by exact_mod_cast hs
  have hu' : (0 : Rat) < u := by exact_mod_cast hu
  have hd : (0 : Rat) < b.den := by exact_mod_cast b.den_pos
  refine ⟨_, rs, hform, mul_pos (mul_pos (zpow_pos hb _) hs') (div_pos hu' hd), fun t ht => ?_, ?_⟩
  · rcases List.mem_append.1 (hperm.mem_iff.1 ht) with h | h
    · exact hts t h
    · exact hus t h
  · have hb' : (b.num.natAbs : Rat) = b * b.den := by
      rw [Rat.mul_den_eq_num, ← Int.cast_natCast, Int.natAbs_of_nonneg (Rat.num_pos.2 hb).le]
    calc (b ^ x.floor * s * (u / b.den)) ^ x.den * rootsPower x.den rs
        = (b ^ x.floor) ^ x.den * (s ^ x.den * rootsPower x.den ts) * (u ^ x.den * rootsPower x.den us) / b.den ^ x.den := by
          rw [rootsPower_perm _ hperm, rootsPower_append]
          ring
      _ = (b ^ x.floor) ^ x.den * (b ^ p * (b.den ^ p * b.den ^ (x.den - p))) / b.den ^ x.den := by
          rw [hsvalue, huvalue, hb', mul_pow]
          ring
      _ = (b ^ x.floor) ^ x.den * b ^ p := by
          rw [← pow_add, Nat.add_sub_cancel' hpq.le, ← mul_assoc, mul_div_cancel_right₀ _ (pow_pos hd _).ne']
      _ = b ^ x.num := by
          rw [hsplit, zpow_add₀ hb.ne', zpow_mul, zpow_natCast, zpow_natCast]

/-! ## Every sign -/

/-- The powers of `i` repeat after four steps. -/
theorem power_i_mod (n : Int) : power i (rat (n % 4 : Int)) = iPower n := by
  have h : n % 4 = 0 ∨ n % 4 = 1 ∨ n % 4 = 2 ∨ n % 4 = 3 := by omega
  have hmod : iPower n = iPower (n % 4) := by
    have hemod : (n % 4).emod 4 = n.emod 4 := Int.emod_emod_of_dvd n dvd_rfl
    rw [iPower, iPower, hemod]
  rw [hmod]
  rcases h with h | h | h | h <;> rw [h] <;> rfl

/-- A rational to a power that is no whole number. For a positive rational it stands unevaluated if it is out of the
limits; else it is a positive rational, which is left out if it is one, times roots of naturals above one with proper
fractions as exponents: the power of that with the denominator of the exponent is the power of the rational with the
numerator. The square root of a negative rational is the product of a power of `i` and the root of the opposite. -/
theorem rationalPower_exact (product : List Expr → Expr) {b x : Rat} (hx : x.den ≠ 1) :
    (0 < b →
      (maxRootIndex < x.den ∨ powerFits b x.floor = false) ∧ rationalPower product b x = pow (rat b) (rat x) ∨
      ∃ (c : Rat) (ts : List Root), rationalPower product b x = times c (ts.map Root.factor) ∧ 0 < c ∧
        (∀ t ∈ ts, t.Proper x.den) ∧ c ^ x.den * rootsPower x.den ts = b ^ x.num) ∧
    (b < 0 → x.den = 2 → rationalPower product b x =
      product [power i (rat (x.num % 4 : Int)), rationalPower product (-b) x]) := by
  constructor
  · intro hb
    rw [rationalPower, if_neg hb.ne', if_neg hx, if_neg hb.not_gt]
    split
    · rename_i hindex
      exact .inl ⟨.inl hindex, rfl⟩
    · cases hfits : powerFits b x.floor with
      | true => exact .inr (positiveRoot_exact hb hx hfits)
      | false => exact .inl ⟨.inr rfl, by simp [positiveRoot, hfits]⟩
  · intro hb h2
    have hindex : ¬ maxRootIndex < x.den := by
      rw [h2]
      decide
    have hpos : rationalPower product (-b) x = positiveRoot (-b) x := by
      rw [rationalPower, if_neg (neg_ne_zero.2 hb.ne), if_neg hx, if_neg hindex, if_neg (by linarith)]
    rw [hpos, power_i_mod, rationalPower, if_neg hb.ne, if_neg hx, if_neg hindex, if_pos hb, if_pos h2]

/-- The power `(12/5) ^ (3/2)`, and the same power of `-12/5`. -/
theorem rationalPower_exact_three_halves :
    (∃ (c : Rat) (ts : List Root), rationalPower product (12 / 5) (3 / 2) = times c (ts.map Root.factor) ∧ 0 < c ∧
      (∀ t ∈ ts, t.Proper (3 / 2 : Rat).den) ∧
        c ^ (3 / 2 : Rat).den * rootsPower (3 / 2 : Rat).den ts = (12 / 5) ^ (3 / 2 : Rat).num) ∧
    rationalPower product (-12 / 5) (3 / 2) =
      product [power i (rat ((3 / 2 : Rat).num % 4 : Int)), rationalPower product (-(-12 / 5)) (3 / 2)] := by
  have hx : (3 / 2 : Rat).den ≠ 1 := by decide +kernel
  have hfits : ¬ (maxRootIndex < (3 / 2 : Rat).den ∨ powerFits (12 / 5) (3 / 2 : Rat).floor = false) := by decide +kernel
  exact ⟨((rationalPower_exact product hx).1 (by norm_num : (0 : Rat) < 12 / 5)).resolve_left fun h => hfits h.1,
    (rationalPower_exact product hx).2 (by norm_num : (-12 / 5 : Rat) < 0) (by decide +kernel)⟩

end SymbolicSolver.Expr
