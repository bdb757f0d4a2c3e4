import Mathlib.Data.Rat.Floor
import SymbolicSolver.Proofs.Canonical.Powers
import SymbolicSolver.Proofs.Number.Root

/-!
# Square roots of rationals

The square root of a rational is a rational behind which stand square roots of naturals that are no squares, each from
another natural, and `i` if the rational is negative. It is a rational exactly for the squares. Roots with something
left behind the coefficient, alone or beside a rational, have square roots that are no rationals either.
-/

namespace SymbolicSolver.Expr

/-! ## Rational powers -/

/-- A positive rational to a fractional power: a coefficient and at most two roots. -/
theorem positiveRoot_eq_times {b x : Rat} (h : powerFits b x.floor = true) :
    let p := (x - x.floor).num.natAbs
    let top := radical b.num.natAbs p x.den
    let bottom := radical b.den (x.den - p) x.den
    positiveRoot b x =
      times (Rational.power b x.floor * top.1 * (bottom.1 / b.den)) (sortFactors (top.2 ++ bottom.2)) := by
  dsimp only
  rw [positiveRoot, h]
  dsimp only
  generalize Rational.power b x.floor * _ * _ = c
  generalize sortFactors _ = fs
  simp only [Bool.not_true, Bool.false_eq_true, if_false]
  by_cases hc : c = 1
  · rw [if_pos hc, hc]
    split
    · exact (times_nil 1).symm
    · exact (times_one_singleton _).symm
    · rename_i hnil hone
      match fs with
      | [] => exact absurd rfl hnil
      | [f] => exact absurd rfl (hone f)
      | f :: g :: fs => exact (times_one_cons_cons f g fs).symm
  · rw [if_neg hc]
    split
    · exact (times_nil c).symm
    · rename_i hnil
      exact (times_of_ne_one hc hnil).symm

theorem powerFits_zero (b : Rat) : powerFits b 0 = true := by
  have hword : fitsWord 0 = true := by decide
  simp [powerFits, hword]

theorem floor_eq_zero {e : Rat} (h0 : 0 < e) (h1 : e < 1) : e.floor = 0 := by
  show (⌊e⌋ : Int) = 0
  exact Int.floor_eq_zero_iff.2 ⟨h0.le, h1⟩

theorem radical_one (p q : Nat) : radical 1 p q = (1, []) := by simp [radical]

/-- A root of a natural stands as it is if the natural has no such root and no perfect power can be taken out. -/
theorem radical_self {n p q : Nat} (hn : n ≠ 1) (hroot : exactRoot? q n = none)
    (hextract : p = 1 → extractPower q n = (1, (n : Int))) :
    radical n p q = (1, [pow (rat n) (rat (mkRat p q))]) := by
  rw [radical, if_neg hn, hroot]
  dsimp only
  split
  · rename_i hp
    rw [hextract hp]
    simp
  · rfl

/-- A power with a fractional exponent between zero and one whose root stands as it is. -/
theorem positiveRoot_self {m : Nat} {e : Rat} (h0 : 0 < e) (h1 : e < 1)
    (hroot : radical m e.num.natAbs e.den = (1, [pow (rat m) (rat e)])) :
    positiveRoot m e = pow (rat m) (rat e) := by
  have hfloor := floor_eq_zero h0 h1
  rw [positiveRoot_eq_times (by rw [hfloor]; exact powerFits_zero _)]
  simp [hfloor, hroot, radical_one, Rational.power, sortFactors]

theorem mkRat_self {e : Rat} (h : 0 ≤ e) : mkRat e.num.natAbs e.den = e := by
  rw [Int.natAbs_of_nonneg (Rat.num_nonneg.2 h), Rat.mkRat_self]

/-! ## Powers of naturals that are no squares -/

/-- A natural that is no square and from which no square can be taken out. -/
structure Radicand (m : Nat) : Prop where
  two_le : 2 ≤ m
  notSquare : exactRoot? 2 m = none
  squareFree : PowerFree 2 2 m

/-- The exponents that occur under nested square roots. -/
def Quarter (e : Rat) : Prop := e = 1 / 4 ∨ e = 1 / 2 ∨ e = 3 / 4

namespace Quarter

variable {e : Rat}

theorem pos (h : Quarter e) : 0 < e := by
  rcases h with rfl | rfl | rfl <;> norm_num

theorem lt_one (h : Quarter e) : e < 1 := by
  rcases h with rfl | rfl | rfl <;> norm_num

theorem den (h : Quarter e) : e.den = 2 ∧ e.num = 1 ∨ e.den = 4 := by
  rcases h with rfl | rfl | rfl <;> decide +kernel

end Quarter

namespace Radicand

variable {m : Nat}

theorem ne_zero (h : Radicand m) : m ≠ 0 := by
  have := h.two_le
  omega

theorem ne_one (h : Radicand m) : m ≠ 1 := by
  have := h.two_le
  omega

theorem radical (h : Radicand m) {e : Rat} (he : Quarter e) :
    radical m e.num.natAbs e.den = (1, [pow (rat m) (rat e)]) := by
  have hextract (q : Nat) (hq : 2 ≤ q) (hfree : PowerFree q 2 m) : extractPower q m = (1, (m : Int)) :=
    extractPower_of_powerFree hq (two_pos.trans_le h.two_le) hfree
  have hself := mkRat_self he.pos.le
  rcases he.den with ⟨hden, hnum⟩ | hden
  · rw [radical_self h.ne_one (hden ▸ h.notSquare) fun _ => hden ▸ hextract 2 le_rfl h.squareFree, hself]
  · have hfree := h.squareFree.four le_rfl (Nat.pos_of_ne_zero h.ne_zero)
    rw [radical_self h.ne_one (hden ▸ exactRoot?_four h.notSquare) fun _ => hden ▸ hextract 4 (by omega) hfree,
      hself]

/-- Powers of a radicand with a quarter or a half as exponent stand as they are. -/
theorem powerWithin (h : Radicand m) {e : Rat} (he : Quarter e) (k : Nat) :
    powerWithin k (rat m) (rat e) = pow (rat m) (rat e) := by
  have hm1 : (m : Rat) ≠ 1 := by exact_mod_cast h.ne_one
  cases k with
  | zero =>
    rw [Expr.powerWithin, plainPower, if_neg (by simp), if_neg (by simpa [isZero] using he.pos.ne'),
      if_neg (by simpa [isOne] using he.lt_one.ne), if_neg (by simpa [isOne] using hm1)]
  | succ k =>
    have hm0 : (m : Rat) ≠ 0 := Nat.cast_ne_zero.2 h.ne_zero
    have hpos : ¬ (m : Rat) < 0 := not_lt.2 (Nat.cast_nonneg m)
    have hden : e.den ≠ 1 ∧ ¬ maxRootIndex < e.den := by
      rcases he.den with ⟨hden, -⟩ | hden <;> rw [hden] <;> decide
    rw [Expr.powerWithin, powerStep, if_neg (by simp), if_neg (by simpa [isZero] using he.pos.ne'),
      if_neg (by simpa [isOne] using he.lt_one.ne), if_neg (by simpa [isOne] using hm1)]
    show rationalPower (productWithin k) m e = _
    rw [rationalPower, if_neg hm0, if_neg hden.1, if_neg hden.2, if_neg hpos,
      positiveRoot_self he.pos he.lt_one (h.radical he)]

end Radicand

/-! ## Rows of square roots -/

theorem half_eq : half = rat (1 / 2) := by
  rw [half, frac, Rat.mkRat_eq_div]
  norm_num

/-- What stands behind the coefficient of a square root. -/
inductive RootFactor : Expr → Prop
  | unit : RootFactor i
  | sqrt {m : Nat} (h : Radicand m) : RootFactor (pow (rat m) half)

/-- The root factor with a given base. -/
def rootOf (b : Expr) : Expr := if b = i then i else pow b half

namespace RootFactor

variable {f : Expr}

theorem atom (h : RootFactor f) : Atom f := by
  cases h with
  | unit => exact atom_i
  | sqrt => exact atom_pow _ _

theorem exponent (h : RootFactor f) : ∃ e, (asBase f).2 = rat e := by
  cases h with
  | unit => exact ⟨1, rfl⟩
  | sqrt => exact ⟨_, rfl⟩

theorem rootOf_base (h : RootFactor f) : rootOf (asBase f).1 = f := by
  cases h <;> simp [rootOf, asBase]

theorem powerWithin (h : RootFactor f) (k : Nat) :
    powerWithin (k + 1) (asBase f).1 (asBase f).2 = rootOf (asBase f).1 := by
  rw [h.rootOf_base]
  cases h with
  | unit => simp [Expr.powerWithin, powerStep, asBase, one, isZero, isOne]
  | sqrt h =>
    rw [half_eq]
    exact h.powerWithin (.inr (.inl rfl)) (k + 1)

end RootFactor

/-- Root factors with different bases. -/
structure RootRow (hs : List Expr) : Prop where
  factor : ∀ h ∈ hs, RootFactor h
  nodup : (hs.map fun h => (asBase h).1).Nodup

namespace RootRow

variable {hs gs : List Expr}

theorem nil : RootRow [] := ⟨by simp, by simp⟩

theorem perm (h : RootRow hs) (hp : gs.Perm hs) : RootRow gs :=
  ⟨fun f hf => h.factor f (hp.mem_iff.1 hf), (hp.map _).nodup_iff.2 h.nodup⟩

theorem atom (h : RootRow hs) : ∀ f ∈ hs, Atom f := fun f hf => (h.factor f hf).atom

/-- A product changes at most the order of a row. -/
theorem product (h : RootRow hs) {xs : List Expr} {c : Rat} (hflat : Flat xs c hs) (hc : c ≠ 0) :
    ∃ gs, gs.Perm hs ∧ RootRow gs ∧ ∀ k, productWithin (k + 2) xs = times c gs := by
  obtain ⟨gs, hperm, hprod⟩ := productWithin_rebuilt rootOf hflat hc h.nodup fun f hf => by
    have hroot := h.factor f hf
    exact ⟨hroot.atom, hroot.rootOf_base.symm ▸ hroot.atom, hroot.exponent, hroot.powerWithin⟩
  have hself : (hs.map fun f => rootOf (asBase f).1) = hs :=
    (List.map_congr_left fun f hf => (h.factor f hf).rootOf_base).trans (List.map_id hs)
  rw [hself] at hperm
  exact ⟨gs, hperm, h.perm hperm, hprod⟩

end RootRow

/-! ## Square roots of rationals -/

/-- The square root of a natural is a natural, or one natural root stays. -/
theorem radical_two {n : Nat} (hn : n ≠ 0) : ∃ (s : Nat) (hs : List Expr), radical n 1 2 = ((s : Rat), hs) ∧ s ≠ 0 ∧
    (hs = [] ∧ n = s * s ∨
      exactRoot? 2 n = none ∧ ∃ m, Radicand m ∧ n = s * s * m ∧ hs = [pow (rat m) half]) := by
  by_cases h1 : n = 1
  · exact ⟨1, [], by simp [radical, h1], one_ne_zero, .inl ⟨rfl, h1⟩⟩
  · cases hroot : exactRoot? 2 n with
    | some s =>
      have hsq : n = s * s := by
        have hpow := exactRoot?_pow hroot
        rw [sq] at hpow
        exact_mod_cast hpow.symm
      refine ⟨s, [], by simp [radical, h1, hroot, Nat.pow_eq], ?_, .inl ⟨rfl, hsq⟩⟩
      rintro rfl
      exact hn hsq
    | none =>
      obtain ⟨s, m, hextract, hspec, hm, hmsq, hfree⟩ := extractPower_two (by omega : 2 ≤ n) hroot
      refine ⟨s, [pow (rat m) half], ?_, ?_, .inr ⟨rfl, m, ⟨hm, hmsq, hfree⟩, by rw [hspec, sq], rfl⟩⟩
      · simp [radical, h1, hroot, hextract, half, frac]
      · rintro rfl
        simp at hspec
        exact hn hspec

/-- The square root of a rational: a coefficient with a row of roots behind it, which is empty exactly for squares. -/
structure RootForm (d : Rat) (x : Expr) (c : Rat) (hs : List Expr) : Prop where
  eq_times : x = times c hs
  coeff : c ≠ 0
  row : RootRow hs
  square : hs = [] → c * c = d
  rational : ∀ s, d = s * s → hs = []

/-- No `i` comes up in the root of a positive rational. -/
theorem positiveRoot_two {d : Rat} (hd : 0 < d) :
    ∃ c hs, RootForm d (positiveRoot d (1 / 2)) c hs ∧ i ∉ hs := by
  have hnum : d.num.natAbs ≠ 0 := Int.natAbs_ne_zero.2 (Rat.num_ne_zero.2 hd.ne')
  obtain ⟨s, us, htop, hs0, hus⟩ := radical_two hnum
  obtain ⟨t, vs, hbottom, ht0, hvs⟩ := radical_two d.den_nz
  have hfloor : (1 / 2 : Rat).floor = 0 := floor_eq_zero (by norm_num) (by norm_num)
  have hhalf : (1 / 2 : Rat).num.natAbs = 1 ∧ (1 / 2 : Rat).den = 2 := by decide +kernel
  have heq := positiveRoot_eq_times (b := d) (x := 1 / 2) (by rw [hfloor]; exact powerFits_zero d)
  simp only [hfloor, Int.cast_zero, sub_zero, hhalf.1, hhalf.2, Nat.add_one_sub_one, htop, hbottom] at heq
  have hperm : (sortFactors (us ++ vs)).Perm (us ++ vs) := List.mergeSort_perm _ _
  have hden : (d.den : Rat) ≠ 0 := Nat.cast_ne_zero.2 d.den_nz
  -- A radicand in the numerator and one in the denominator have no divisor in common.
  have hrow : RootRow (us ++ vs) ∧ i ∉ us ++ vs := by
    rcases hus with ⟨rfl, -⟩ | ⟨-, m, hm, hmn, rfl⟩ <;> rcases hvs with ⟨rfl, -⟩ | ⟨-, k, hk, hkn, rfl⟩
    · exact ⟨.nil, by simp⟩
    · exact ⟨⟨by simpa using .sqrt hk, by simp⟩, by simp⟩
    · exact ⟨⟨by simpa using .sqrt hm, by simp⟩, by simp⟩
    · have hne : m ≠ k := by
        rintro rfl
        have h1 := Nat.dvd_gcd (Dvd.intro_left _ hmn.symm) (Dvd.intro_left _ hkn.symm)
        rw [d.reduced] at h1
        exact hm.ne_one (Nat.dvd_one.1 h1)
      refine ⟨⟨by simpa using ⟨.sqrt hm, .sqrt hk⟩, ?_⟩, by simp⟩
      simpa [asBase] using hne
  refine ⟨_, _, ⟨heq, ?_, hrow.1.perm hperm, fun hnil => ?_, fun r hr => ?_⟩, fun hi => hrow.2 (hperm.mem_iff.1 hi)⟩
  · have hs' : (s : Rat) ≠ 0 := Nat.cast_ne_zero.2 hs0
    have ht' : (t : Rat) ≠ 0 := Nat.cast_ne_zero.2 ht0
    simp [Rational.power, hs', ht']
  · rw [hnil] at hperm
    obtain ⟨rfl, rfl⟩ := List.append_eq_nil_iff.1 hperm.symm.eq_nil
    obtain hus := hus.resolve_right (by simp)
    obtain hvs := hvs.resolve_right (by simp)
    have hn : (d.num : Rat) = s * s := by
      rw [← Int.natAbs_of_nonneg (Rat.num_nonneg.2 hd.le), hus.2]
      push_cast
      ring
    have hd' : (d.den : Rat) = t * t := by
      rw [hvs.2]
      push_cast
      ring
    have hpower : Rational.power d 0 = 1 := by simp [Rational.power]
    calc Rational.power d 0 * s * (t / d.den) * (Rational.power d 0 * s * (t / d.den))
        = s * s * (t * t) / (d.den * d.den) := by rw [hpower]; ring
      _ = d.num * d.den / (d.den * d.den) := by rw [← hn, ← hd']
      _ = d := by rw [mul_div_mul_right _ _ hden, Rat.num_div_den]
  · have hsq (n k : Nat) (h : n = k * k) : exactRoot? 2 n ≠ none := by
      rw [h, exactRoot?_square]
      simp
    have hus := hus.resolve_right fun h => hsq _ r.num.natAbs (by
      rw [hr, Rat.mul_self_num, Int.natAbs_mul]) h.1
    have hvs := hvs.resolve_right fun h => hsq _ r.den (by rw [hr, Rat.mul_self_den]) h.1
    rw [hus.1, hvs.1, List.append_nil] at hperm ⊢
    exact hperm.eq_nil

theorem powerWithin_half_of_pos {d : Rat} (hd : 0 < d) :
    ∃ c hs, i ∉ hs ∧ ∀ k, RootForm d (powerWithin (k + 1) (rat d) half) c hs := by
  by_cases h1 : d = 1
  · subst h1
    refine ⟨1, [], by simp, fun k => ⟨?_, one_ne_zero, .nil, fun _ => one_mul 1, fun _ _ => rfl⟩⟩
    simp [powerWithin, powerStep, half_eq, isZero, isOne, isFinite, exist, one]
  · obtain ⟨c, hs, hform, hi⟩ := positiveRoot_two hd
    have hpower (k : Nat) : powerWithin (k + 1) (rat d) half = positiveRoot d (1 / 2) := by
      have hden : (1 / 2 : Rat).den = 2 := by decide +kernel
      rw [half_eq, powerWithin, powerStep, if_neg (by simp), if_neg (by simp [isZero]), if_neg (by simp [isOne]),
        if_neg (by simpa [isOne] using h1)]
      show rationalPower (productWithin k) d (1 / 2) = _
      rw [rationalPower, if_neg hd.ne', hden, if_neg (by decide), if_neg (by decide), if_neg (not_lt.2 hd.le)]
    exact ⟨c, hs, hi, fun k => hpower k ▸ hform⟩

/-- The square root of a negative rational has `i` among its factors. -/
theorem powerWithin_half_of_neg {d : Rat} (hd : d < 0) (k : Nat) :
    ∃ c hs, RootForm d (powerWithin (k + 3) (rat d) half) c hs := by
  obtain ⟨c, hs, hform, hi⟩ := positiveRoot_two (neg_pos.2 hd)
  have hpower : powerWithin (k + 3) (rat d) half = productWithin (k + 2) [i, positiveRoot (-d) (1 / 2)] := by
    have hden : (1 / 2 : Rat).den = 2 ∧ iPower (1 / 2 : Rat).num = i := by
      have hnum : (1 / 2 : Rat).num = 1 := by decide +kernel
      exact ⟨by decide +kernel, by rw [hnum]; rfl⟩
    have h1 : d ≠ 1 := (hd.trans one_pos).ne
    rw [half_eq, powerWithin, powerStep, if_neg (by simp), if_neg (by simp [isZero]), if_neg (by simp [isOne]),
      if_neg (by simpa [isOne] using h1)]
    show rationalPower (productWithin (k + 2)) d (1 / 2) = _
    rw [rationalPower, if_neg hd.ne, hden.1, if_neg (by decide), if_neg (by decide), if_pos hd, if_pos rfl, hden.2]
  have hrow : RootRow (i :: hs) := by
    refine ⟨List.forall_mem_cons.2 ⟨.unit, hform.row.factor⟩, List.nodup_cons.2 ⟨fun hmem => ?_, hform.row.nodup⟩⟩
    obtain ⟨f, hf, hbase⟩ := List.mem_map.1 hmem
    cases hform.row.factor f hf with
    | unit => exact hi hf
    | sqrt => cases hbase
  have hunit : Flat [i] 1 [i] := .atoms (by simpa using atom_i)
  have hflat := hunit.append (Flat.times c hform.row.atom)
  rw [one_mul] at hflat
  obtain ⟨gs, hperm, hgs, hprod⟩ := hrow.product hflat hform.coeff
  refine ⟨c, gs, ?_, hform.coeff, hgs, fun hnil => ?_, fun s hs => ?_⟩
  · rw [hpower, hform.eq_times]
    exact hprod k
  · rw [hnil] at hperm
    exact absurd hperm.symm.eq_nil (by simp)
  · exact absurd (mul_self_nonneg s) (not_le.2 (hs ▸ hd))

theorem sqrt_rat {d : Rat} (hd : d ≠ 0) : ∃ c hs, RootForm d (sqrt (rat d)) c hs := by
  obtain ⟨k, hk⟩ := roundsFor_eq ((rat d).size + half.size)
  rw [sqrt, power, hk]
  rcases lt_or_gt_of_ne hd with hneg | hpos
  · exact powerWithin_half_of_neg hneg (k + 1)
  · obtain ⟨c, hs, -, hform⟩ := powerWithin_half_of_pos hpos
    exact ⟨c, hs, hform (k + 3)⟩

theorem sqrt_zero : sqrt (rat 0) = rat 0 := by
  obtain ⟨k, hk⟩ := roundsFor_eq ((rat 0).size + half.size)
  rw [sqrt, power, hk, half_eq, powerWithin, powerStep, if_neg (by simp), if_neg (by simp [isZero]),
    if_neg (by simp [isOne]), if_neg (by simp [isOne])]
  show rationalPower (productWithin (k + 3)) 0 (1 / 2) = _
  simp [rationalPower, zero]

/-! ## Square roots of what is no rational -/

/-- The half power of what is no rational goes by the form of the base. -/
theorem powerWithin_half {b : Expr} (hr : b.rat? = none) (hu : b ≠ undefined) (hinf : b.infinitySign? = none)
    (k : Nat) : powerWithin (k + 1) b half = powerOfBase (powerWithin k) (productWithin k) b half := by
  have hint : Rational.isInt (1 / 2 : Rat) = false := by decide +kernel
  rw [half_eq, powerWithin]
  unfold powerStep
  rw [if_neg (by simpa using hu), if_neg (by simp [isZero]), if_neg (by simp [isOne]),
    if_neg (by simp [isOne_of_rat?_eq_none hr])]
  cases b with
  | rat q => cases hr
  | i => exact if_neg (by rw [hint]; exact Bool.false_ne_true)
  | mul fs => rw [hinf]; rfl
  | infinity => cases hinf
  | _ => rfl

/-- A coefficient with powers behind it, each of which stands when the exponents of its base are added up. -/
def Fractional (x : Expr) : Prop :=
  ∃ c fs, x = times c fs ∧ c ≠ 0 ∧ fs ≠ [] ∧ ∀ f ∈ fs, ∃ b e, f = pow b (rat e) ∧
    ∀ k, powerWithin (k + 1) b (rat (exponent b fs)) = pow b (rat (exponent b fs))

theorem fractional_pow {b : Expr} {e : Rat} (h : ∀ k, powerWithin (k + 1) b (rat e) = pow b (rat e)) :
    Fractional (pow b (rat e)) := by
  have hexp : exponent b [pow b (rat e)] = e := by simp [exponent_cons, asBase, rat?]
  refine ⟨1, [pow b (rat e)], (times_one_singleton _).symm, one_ne_zero, by simp, fun f hf => ?_⟩
  exact ⟨b, e, List.mem_singleton.1 hf, hexp.symm ▸ h⟩

/-- Neither it nor its negative is a rational. -/
theorem Fractional.rat?_eq_none {x : Expr} (h : Fractional x) : x.rat? = none ∧ (-x).rat? = none := by
  obtain ⟨c, fs, rfl, hc, hne, hfs⟩ := h
  have hatom : ∀ f ∈ fs, Atom f := by
    intro f hf
    obtain ⟨b, e, rfl, -⟩ := hfs f hf
    exact atom_pow _ _
  refine ⟨rat?_times hne hatom, ?_⟩
  have hflat := (Flat.rat (-1)).append (Flat.times c hatom)
  have hbases : ∀ f ∈ [] ++ fs, Atom f ∧ ∃ e, (asBase f).2 = rat e := by
    intro f hf
    obtain ⟨b, e, rfl, -⟩ := hfs f hf
    exact ⟨atom_pow _ _, e, rfl⟩
  obtain ⟨bs, -, hmem, hprod⟩ := productWithin_powers (fun b => pow b (rat (exponent b fs))) hflat (by simpa using hc)
    hbases fun f hf => by
      obtain ⟨b, e, rfl, hpow⟩ := hfs f hf
      exact ⟨atom_pow _ _, hpow⟩
  obtain ⟨f, hf⟩ := List.exists_mem_of_ne_nil fs hne
  have hbs : (sortFactors (bs.map fun b => pow b (rat (exponent b fs)))).Perm
      (bs.map fun b => pow b (rat (exponent b fs))) := List.mergeSort_perm _ _
  obtain ⟨k, hk⟩ := roundsFor_eq (sizeAll ([rat (-1)] ++ [times c fs]))
  show (product ([rat (-1)] ++ [times c fs])).rat? = none
  rw [product, hk, hprod]
  refine rat?_times (fun hnil => ?_) fun g hg => ?_
  · rw [hnil] at hbs
    have hb : (asBase f).1 ∈ bs := (hmem _).2 ⟨f, by simpa using hf, rfl⟩
    rw [List.map_eq_nil_iff.1 hbs.symm.eq_nil] at hb
    simp at hb
  · obtain ⟨b, -, rfl⟩ := List.mem_map.1 (hbs.mem_iff.1 hg)
    exact atom_pow _ _

/-- A base whose half power stands as it is. -/
structure HalfBase (b : Expr) : Prop where
  notRat : b.rat? = none
  half : ∀ k, powerWithin (k + 1) b half = pow b half

theorem HalfBase.fractional {b : Expr} (h : HalfBase b) : Fractional (pow b Expr.half) := by
  have hhalf := h.half
  rw [half_eq] at hhalf ⊢
  exact fractional_pow hhalf

/-- A base that is neither a power nor a product with a positive coefficient. -/
theorem halfBase_of {b : Expr} (hr : b.rat? = none) (hu : b ≠ undefined) (hinf : b.infinitySign? = none)
    (hpow : ∀ c x, b ≠ pow c x) (hmul : ∀ c fs, b = mul (rat c :: fs) → c ≤ 0) : HalfBase b := by
  refine ⟨hr, fun k => ?_⟩
  rw [powerWithin_half hr hu hinf]
  unfold powerOfBase
  split
  · exact absurd rfl (hpow _ _)
  · have hint : half.isInteger = false := by decide +kernel
    rw [hint, if_neg Bool.false_ne_true]
    split
    · rename_i c rest
      rw [if_neg (not_lt.2 (hmul c rest rfl))]
    · rfl
  · rfl

/-- The half power of the root of a radicand is its fourth root. -/
theorem powerWithin_half_sqrt {m : Nat} (h : Radicand m) (k : Nat) :
    powerWithin (k + 1) (pow (rat m) half) half = pow (rat m) (rat (1 / 4)) := by
  have hpos : isPositiveBase (rat (m : Rat)) = true := by
    simpa [isPositiveBase] using Nat.pos_of_ne_zero h.ne_zero
  rw [powerWithin_half rfl (by simp) rfl, powerOfBase, hpos, Bool.or_true, if_pos rfl, half_eq, productWithin_rat_rat]
  norm_num
  exact h.powerWithin (.inl rfl) k

/-- The half power of a row of roots: of a base whose half power stands as it is, or a fourth root. -/
inductive HalfRoot : Expr → Prop
  | half {b : Expr} (hb : HalfBase b) : HalfRoot (pow b Expr.half)
  | fourth {m : Nat} (hm : Radicand m) : HalfRoot (pow (rat m) (rat (1 / 4)))

theorem half_ofFactors {hs : List Expr} (hne : hs ≠ []) (h : RootRow hs) :
    HalfBase (ofFactors hs) ∨ ∃ m, Radicand m ∧ ofFactors hs = pow (rat m) half := by
  have hr := rat?_times (c := 1) hne h.atom
  have hu := times_ne_undefined (c := 1) h.atom
  have hinf := infinitySign?_times (c := 1) h.atom
  match hs with
  | [f] =>
    rw [times_one_singleton] at hr hu hinf
    show HalfBase f ∨ ∃ m, Radicand m ∧ f = pow (rat m) half
    cases h.factor f (by simp) with
    | unit => exact .inl (halfBase_of hr hu hinf (by simp) (by simp))
    | sqrt hm => exact .inr ⟨_, hm, rfl⟩
  | f :: g :: fs =>
    rw [times_one_cons_cons] at hr hu hinf
    refine .inl (halfBase_of hr hu hinf (by simp [ofFactors]) fun c gs heq => ?_)
    obtain rfl := (List.cons.inj (Expr.mul.inj heq)).1
    have hf := (h.atom (rat c) (by simp)).notRat
    cases hf

theorem powerWithin_half_ofFactors {hs : List Expr} (hne : hs ≠ []) (h : RootRow hs) :
    ∃ f, HalfRoot f ∧ ∀ k, powerWithin (k + 1) (ofFactors hs) half = f := by
  rcases half_ofFactors hne h with hb | ⟨m, hm, heq⟩
  · exact ⟨_, .half hb, hb.half⟩
  · exact ⟨_, .fourth hm, heq ▸ powerWithin_half_sqrt hm⟩

theorem exponent_pow (b : Expr) (e : Rat) (a : Expr) : exponent a [pow b (rat e)] = if b = a then e else 0 := by
  rw [exponent_cons, exponent_nil, add_zero]
  rfl

namespace HalfRoot

variable {f : Expr}

theorem atom (h : HalfRoot f) : Atom f := by
  cases h <;> exact atom_pow _ _

theorem fractional (h : HalfRoot f) : Fractional f := by
  cases h with
  | half hb => exact hb.fractional
  | fourth hm => exact fractional_pow fun k => hm.powerWithin (.inl rfl) (k + 1)

/-- A radicand occurs with a quarter, if it occurs at all. -/
theorem exponent_rat (h : HalfRoot f) (m : Nat) : exponent (rat m) [f] = 0 ∨ exponent (rat m) [f] = 1 / 4 := by
  cases h with
  | half hb =>
    rw [half_eq, exponent_pow]
    refine .inl (if_neg ?_)
    rintro rfl
    cases hb.notRat
  | fourth hm =>
    rw [exponent_pow]
    exact (ite_eq_or_eq _ _ _).symm

end HalfRoot

/-- In a row without `i` the exponents are halves of radicands. -/
theorem RootRow.exponent_eq {gs : List Expr} (h : RootRow gs) (hi : i ∉ gs) (b : Expr) :
    exponent b gs = 0 ∨ exponent b gs = 1 / 2 ∧ ∃ m, Radicand m ∧ b = rat (m : Nat) := by
  by_cases hb : ∃ f ∈ gs, (asBase f).1 = b
  · obtain ⟨f, hf, rfl⟩ := hb
    have hexp := exponent_of_nodup hf h.nodup
    cases h.factor f hf with
    | unit => exact absurd hf hi
    | sqrt hm =>
      refine .inr ⟨hexp.trans ?_, _, hm, rfl⟩
      simp [asBase, half_eq, rat?]
  · exact .inl (exponent_eq_zero fun f hf hfb => hb ⟨f, hf, hfb⟩)

section Row

variable {gs : List Expr} {f : Expr} (h : RootRow gs) (hi : i ∉ gs) (hf : HalfRoot f)

include h hi hf in
/-- A radicand occurs with a half from the row, a quarter from the half power, or both. -/
theorem quarter_exponent {m : Nat} (hmem : exponent (rat m) (gs ++ [f]) ≠ 0) :
    Quarter (exponent (rat m) (gs ++ [f])) := by
  rw [exponent_append] at hmem ⊢
  rcases h.exponent_eq hi (rat m) with hgs | ⟨hgs, -⟩ <;> rcases hf.exponent_rat m with hl | hl <;>
    rw [hgs, hl] at hmem ⊢
  · simp at hmem
  · exact .inl (by norm_num)
  · exact .inr (.inl (by norm_num))
  · exact .inr (.inr (by norm_num))

include h hi hf in
/-- Every factor is a power that stands when the exponents of its base are added up. -/
theorem rebuilt_of_mem {x : Expr} (hx : x ∈ gs ++ [f]) : ∃ b e, x = pow b (rat e) ∧
    ∀ k, powerWithin (k + 1) b (rat (exponent b (gs ++ [f]))) = pow b (rat (exponent b (gs ++ [f]))) := by
  have hstand {m : Nat} (hm : Radicand m) (hne : exponent (rat m) (gs ++ [f]) ≠ 0) (k : Nat) :=
    hm.powerWithin (quarter_exponent h hi hf hne) (k + 1)
  rcases List.mem_append.1 hx with hx | hx
  · cases h.factor x hx with
    | unit => exact absurd hx hi
    | @sqrt m hm =>
      refine ⟨rat m, 1 / 2, by rw [half_eq], hstand hm ?_⟩
      have hgs : exponent (rat m) gs = 1 / 2 := by
        refine (exponent_of_nodup hx h.nodup).trans ?_
        simp [asBase, half_eq, rat?]
      rw [exponent_append, hgs]
      rcases hf.exponent_rat m with hl | hl <;> rw [hl] <;> norm_num
  · obtain rfl := List.mem_singleton.1 hx
    cases hf with
    | @half b hb =>
      have hgs : exponent b gs = 0 := by
        refine (h.exponent_eq hi b).resolve_right ?_
        rintro ⟨-, m, -, rfl⟩
        cases hb.notRat
      refine ⟨b, 1 / 2, by rw [half_eq], fun k => ?_⟩
      rw [exponent_append, hgs, half_eq, exponent_pow, if_pos rfl, zero_add, ← half_eq]
      exact hb.half k
    | @fourth m hm =>
      refine ⟨rat m, 1 / 4, rfl, hstand hm ?_⟩
      rw [exponent_append, exponent_pow, if_pos rfl]
      rcases h.exponent_eq hi (rat m) with hgs | ⟨hgs, -⟩ <;> rw [hgs] <;> norm_num

include h hi hf in
/-- A half power behind a row of roots, in any order. -/
theorem fractional_row {c : Rat} (hc : c ≠ 0) {fs : List Expr} (hfs : fs.Perm (gs ++ [f])) :
    Fractional (times c fs) := by
  refine ⟨c, fs, rfl, hc, fun hnil => ?_, fun x hx => ?_⟩
  · rw [hnil] at hfs
    exact absurd hfs.symm.eq_nil (by simp)
  · obtain ⟨b, e, hx, hpow⟩ := rebuilt_of_mem h hi hf (hfs.mem_iff.1 hx)
    rw [← exponent_perm hfs] at hpow
    exact ⟨b, e, hx, hpow⟩

end Row

/-- A half power that is put behind a row of roots is rebuilt there and nothing else changes. -/
theorem product_beside_half {d : Rat} {gs hs : List Expr} (hd : d ≠ 0) (h : RootRow gs) (hi : i ∉ gs)
    (hrat : (ofFactors hs).rat? = none) {f : Expr} (hf : HalfRoot f)
    (hpow : ∀ k, powerWithin (k + 1) (ofFactors hs) half = f) :
    ∃ fs : List Expr, fs.Perm (gs ++ [f]) ∧
      ∀ k, productWithin (k + 2) [times d gs, pow (ofFactors hs) half] = times d fs := by
  have hbase : ∀ g ∈ gs, (asBase g).1 ≠ ofFactors hs := by
    intro g hg heq
    cases h.factor g hg with
    | unit => exact hi hg
    | sqrt =>
      rw [← heq] at hrat
      cases hrat
  have hlast : Flat [pow (ofFactors hs) half] 1 [pow (ofFactors hs) half] := .atoms (by simp [atom_pow])
  have hflat := (Flat.times d h.atom).append hlast
  rw [mul_one] at hflat
  have hnodup : ((gs ++ [pow (ofFactors hs) half]).map fun g => (asBase g).1).Nodup := by
    rw [List.map_append]
    refine List.nodup_append.2 ⟨h.nodup, by simp, ?_⟩
    rintro a ha b hb rfl
    obtain ⟨g, hg, rfl⟩ := List.mem_map.1 ha
    exact hbase g hg (by simpa [asBase] using hb)
  obtain ⟨fs, hperm, hprod⟩ := productWithin_rebuilt (fun b => if b = ofFactors hs then f else rootOf b) hflat hd
    hnodup fun g hg => by
      rcases List.mem_append.1 hg with hg | hg
      · have hroot := h.factor g hg
        rw [if_neg (hbase g hg), hroot.rootOf_base]
        exact ⟨hroot.atom, hroot.atom, hroot.exponent, fun k => (hroot.powerWithin k).trans hroot.rootOf_base⟩
      · obtain rfl := List.mem_singleton.1 hg
        exact ⟨atom_pow _ _, by simpa [asBase] using hf.atom, ⟨_, half_eq⟩, by simpa [asBase] using hpow⟩
  have hshown : ((gs ++ [pow (ofFactors hs) half]).map fun g =>
      if (asBase g).1 = ofFactors hs then f else rootOf (asBase g).1) = gs ++ [f] := by
    rw [List.map_append]
    congr 1
    · refine (List.map_congr_left fun g hg => ?_).trans (List.map_id gs)
      rw [if_neg (hbase g hg), (h.factor g hg).rootOf_base]
      rfl
    · simp [asBase]
  exact ⟨fs, hshown ▸ hperm, hprod⟩

/-- A coefficient with a row of roots behind it has no rational square root. -/
theorem sqrt_times {c : Rat} {hs : List Expr} (hc : c ≠ 0) (hne : hs ≠ []) (h : RootRow hs) :
    Fractional (sqrt (times c hs)) := by
  obtain ⟨n, hn⟩ := roundsFor_eq ((times c hs).size + half.size)
  obtain ⟨f, hf, hpow⟩ := powerWithin_half_ofFactors hne h
  rw [sqrt, power, hn]
  by_cases hc1 : c = 1
  · have hof : times c hs = ofFactors hs := by simp [times, hc1, hne]
    rw [hof, hpow]
    exact hf.fractional
  have hr := rat?_times (c := c) hne h.atom
  have hu := times_ne_undefined (c := c) h.atom
  have hinf := infinitySign?_times (c := c) h.atom
  rw [times_of_ne_one hc1 hne] at hr hu hinf ⊢
  rcases lt_or_gt_of_ne hc with hneg | hpos
  · have hb : HalfBase (mul (rat c :: hs)) := halfBase_of hr hu hinf (by simp) fun d fs heq => by
      obtain rfl := Expr.rat.inj (List.cons.inj (Expr.mul.inj heq)).1
      exact hneg.le
    rw [hb.half]
    exact hb.fractional
  · -- the root of the coefficient stands beside the root of the row
    have hint : half.isInteger = false := by decide +kernel
    have hrat : (ofFactors hs).rat? = none := by
      have hr1 := rat?_times (c := 1) hne h.atom
      rwa [times, if_neg (by simp [hne])] at hr1
    obtain ⟨d, gs, hi, hform⟩ := powerWithin_half_of_pos hpos
    have hgs := (hform 0).row
    have hd := (hform 0).coeff
    obtain ⟨fs, hperm, hprod⟩ := product_beside_half hd hgs hi hrat hf hpow
    rw [powerWithin_half hr hu hinf, powerOfBase, hint, if_neg Bool.false_ne_true, if_pos hpos,
      (hform (n + 2)).eq_times]
    exact (hprod (n + 1)).symm ▸ fractional_row hgs hi hf hd hperm

end SymbolicSolver.Expr
