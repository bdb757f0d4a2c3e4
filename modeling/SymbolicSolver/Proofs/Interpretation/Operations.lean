import SymbolicSolver.Proofs.Canonical.Hereditary
import SymbolicSolver.Proofs.Interpretation.Product

/-!
# Values of the operations

What the short forms of the constructors do to values, the square root of a rational, and interpretations that agree
along a homomorphism.
-/

namespace SymbolicSolver

namespace Interpretation

open Expr

variable {A : Type*} [CommRing A] [Algebra ℚ A] {I : Interpretation A}

/-- An expression is defined and has the given value. -/
def HasValue (I : Interpretation A) (x : Expr) (a : A) : Prop := I.Defined x ∧ I.eval x = a

theorem Defined.hasValue {x : Expr} (h : I.Defined x) : I.HasValue x (I.eval x) := ⟨h, rfl⟩

theorem Keeps.hasValue {x y : Expr} {a : A} (h : I.Keeps x y) (hx : I.HasValue x a) : I.HasValue y a := by
  obtain ⟨hd, rfl⟩ := hx
  exact h hd

theorem hasValue_rat (q : ℚ) : I.HasValue (rat q) (algebraMap ℚ A q) := ⟨defined_rat q, rfl⟩

theorem hasValue_int (n : ℤ) : I.HasValue (int n) (n : A) := ⟨defined_rat _, by simp [int]⟩

theorem hasValue_var (s : String) : I.HasValue (var s) (I.ofVar s) := ⟨defined_var s, rfl⟩

theorem hasValue_one : I.HasValue one 1 := ⟨defined_rat _, by simp [one]⟩

theorem hasValue_zero : I.HasValue zero 0 := ⟨defined_rat _, by simp [zero]⟩

theorem hasValue_sum (xs : List Expr) (h : ∀ x ∈ xs, I.Defined x) : I.HasValue (sum xs) (xs.map I.eval).sum :=
  (keeps_sum I xs).hasValue ⟨(defined_add xs).2 h, eval_add xs⟩

section Sums

variable {x y : Expr} {a b : A}

theorem HasValue.add (hx : I.HasValue x a) (hy : I.HasValue y b) : I.HasValue (x + y) (a + b) := by
  obtain ⟨hx, rfl⟩ := hx
  obtain ⟨hy, rfl⟩ := hy
  obtain ⟨hd, hv⟩ := hasValue_sum (I := I) [x, y] (by simpa using ⟨hx, hy⟩)
  exact ⟨hd, hv.trans (by simp)⟩

end Sums

section Products

variable [Nontrivial A]

theorem hasValue_product (xs : List Expr) (h : ∀ x ∈ xs, I.Defined x) :
    I.HasValue (product xs) (xs.map I.eval).prod :=
  (keeps_product I xs).hasValue ⟨(defined_mul xs).2 h, eval_mul xs⟩

namespace HasValue

variable {x y : Expr} {a b : A}

theorem mul (hx : I.HasValue x a) (hy : I.HasValue y b) : I.HasValue (x * y) (a * b) := by
  obtain ⟨hx, rfl⟩ := hx
  obtain ⟨hy, rfl⟩ := hy
  obtain ⟨hd, hv⟩ := hasValue_product (I := I) [x, y] (by simpa using ⟨hx, hy⟩)
  exact ⟨hd, hv.trans (by simp)⟩

theorem neg (hx : I.HasValue x a) : I.HasValue (-x) (-a) := by
  obtain ⟨hx, rfl⟩ := hx
  obtain ⟨hd, hv⟩ := hasValue_product (I := I) [rat (-1), x] (by simpa using hx)
  exact ⟨hd, hv.trans (by simp)⟩

theorem sub (hx : I.HasValue x a) (hy : I.HasValue y b) : I.HasValue (x - y) (a - b) := by
  rw [sub_eq_add_neg]
  exact hx.add hy.neg

theorem power (hx : I.HasValue x a) {n : ℤ} (hn : I.Admits a n) : I.HasValue (power x (rat n)) (intPow a n) := by
  obtain ⟨hx, rfl⟩ := hx
  exact (keeps_power I x (rat n)).hasValue ⟨(defined_pow_int x n).2 ⟨hx, hn⟩, eval_pow_int x n⟩

theorem inverse (hx : I.HasValue x a) (ha : IsUnit a) : I.HasValue x.inverse (Ring.inverse a) := by
  have h := hx.power (n := -1) (.inl ha)
  rwa [intPow_neg_one, Int.cast_neg, Int.cast_one] at h

theorem div (hx : I.HasValue x a) (hy : I.HasValue y b) (hb : IsUnit b) : I.HasValue (x / y) (a * Ring.inverse b) :=
  hx.mul (hy.inverse hb)

theorem square (hx : I.HasValue x a) : I.HasValue (Expr.power x (int 2)) (a * a) := by
  have h := hx.power (n := 2) (.inr (.inl two_pos))
  rw [show (2 : ℤ) = ((2 : ℕ) : ℤ) from rfl, intPow_natCast, sq] at h
  exact h

end HasValue

end Products

/-! ## Square roots of rationals -/

/-- Every natural and minus one have square roots. -/
structure HasRoots (I : Interpretation A) : Prop where
  root : ∀ n, (I.root? n).isSome = true
  unit : I.i?.isSome = true

/-- The root of a natural is a coefficient before what has the rest for its square. -/
theorem HasRoots.radical (h : I.HasRoots) {n : ℕ} (hn : n ≠ 0) : ∃ (c : ℕ) (hs : List Expr) (r : A),
    Expr.radical n 1 2 = ((c : ℚ), hs) ∧ I.HasValue (Expr.mul hs) r ∧ (c : A) * c * (r * r) = n := by
  obtain ⟨s, hs, hradical, -, ⟨rfl, rfl⟩ | ⟨-, m, hm, rfl, rfl⟩⟩ := radical_two hn
  · exact ⟨s, [], 1, hradical, ⟨by simp, by simp⟩, by push_cast; ring⟩
  · obtain ⟨u, hsq, hu⟩ := Rooted.halfPowers (I := I) ⟨m, rfl, hm, h.root m⟩
    have hone := hu 1
    rw [Int.cast_one, ← half_eq, zpow_one] at hone
    refine ⟨s, _, u, hradical, ⟨by simpa using hone.1, by simpa using hone.2⟩, ?_⟩
    rw [hsq, eval_rat]
    push_cast [map_natCast]
    ring

theorem sqrt_one : Expr.sqrt (rat 1) = rat 1 := by
  obtain ⟨k, hk⟩ := roundsFor_eq ((rat 1).size + Expr.half.size)
  rw [Expr.sqrt, Expr.power, hk]
  simp [powerWithin, powerStep, half_eq, isZero, isOne, isFinite, exist, one]

/-- The square root of a rational goes by its sign. -/
theorem sqrt_of_ne_one {d : ℚ} (hd : d ≠ 1) : ∃ k, Expr.sqrt (rat d) = rationalPower (productWithin k) d (1 / 2) := by
  obtain ⟨k, hk⟩ := roundsFor_eq ((rat d).size + Expr.half.size)
  refine ⟨k + 3, ?_⟩
  rw [Expr.sqrt, Expr.power, hk, half_eq, powerWithin, powerStep, if_neg (by simp), if_neg (by simp [isZero]),
    if_neg (by simp [isOne]), if_neg (by simpa [isOne] using hd)]
  rfl

theorem HasRoots.positiveRoot (h : I.HasRoots) {d : ℚ} (hd : 0 < d) :
    ∃ s, I.HasValue (Expr.positiveRoot d (1 / 2)) s ∧ s * s = algebraMap ℚ A d := by
  obtain ⟨s, us, r, htop, hus, hr⟩ := h.radical (Int.natAbs_ne_zero.2 (Rat.num_ne_zero.2 hd.ne'))
  obtain ⟨t, vs, w, hbottom, hvs, hw⟩ := h.radical d.den_nz
  have hfloor : (1 / 2 : ℚ).floor = 0 := floor_eq_zero (by norm_num) (by norm_num)
  have hhalf : (1 / 2 : ℚ).num.natAbs = 1 ∧ (1 / 2 : ℚ).den = 2 := by decide +kernel
  have heq := positiveRoot_eq_times (b := d) (x := 1 / 2) (by rw [hfloor]; exact powerFits_zero d)
  simp only [hfloor, Int.cast_zero, sub_zero, hhalf.1, hhalf.2, Nat.add_one_sub_one, htop, hbottom] at heq
  have hperm : (sortFactors (us ++ vs)).Perm (us ++ vs) := List.mergeSort_perm _ _
  have hroots : I.HasValue (Expr.mul (sortFactors (us ++ vs))) (r * w) := by
    refine (Keeps.mul_perm hperm.symm).hasValue ⟨(defined_mul_append _ _).2 ⟨hus.1, hvs.1⟩, ?_⟩
    rw [eval_mul_append, hus.2, hvs.2]
  have hcoeff : Rational.power d 0 * s * (t / d.den) = s * t / d.den := by
    simp [Rational.power]
    ring
  rw [heq, hcoeff]
  refine ⟨algebraMap ℚ A (s * t / d.den) * (r * w), (keeps_times _ _).hasValue ⟨?_, ?_⟩, ?_⟩
  · exact (defined_mul_cons _ _).2 ⟨defined_rat _, hroots.1⟩
  · rw [eval_mul_cons, eval_rat, hroots.2]
  · have hnum : (d.num.natAbs : ℚ) = d.num := by
      rw [Nat.cast_natAbs, abs_of_nonneg (Rat.num_nonneg.2 hd.le)]
    have hden : (d.den : ℚ) ≠ 0 := Nat.cast_ne_zero.2 d.den_nz
    have hsplit : (s * t / d.den : ℚ) = s * t * (d.den : ℚ)⁻¹ := div_eq_mul_inv _ _
    have hself : d = d.num.natAbs * d.den * ((d.den : ℚ)⁻¹ * (d.den : ℚ)⁻¹) := by
      rw [hnum]
      conv_lhs => rw [← Rat.num_div_den d]
      field_simp
    rw [hsplit]
    conv_rhs => rw [hself]
    simp only [map_mul, map_natCast]
    linear_combination (algebraMap ℚ A (d.den : ℚ)⁻¹) ^ 2 * ((t : A) * t * (w * w)) * hr +
      (algebraMap ℚ A (d.den : ℚ)⁻¹) ^ 2 * (d.num.natAbs : A) * hw

/-- The square root of a rational squares to it. -/
theorem HasRoots.sqrt [Nontrivial A] (h : I.HasRoots) {d : ℚ} (hd : d ≠ 0) :
    ∃ s, I.HasValue (Expr.sqrt (rat d)) s ∧ s * s = algebraMap ℚ A d := by
  by_cases h1 : d = 1
  · exact ⟨1, by rw [h1, sqrt_one]; exact ⟨defined_rat _, by simp⟩, by simp [h1]⟩
  obtain ⟨k, hk⟩ := sqrt_of_ne_one h1
  have hden : (1 / 2 : ℚ).den = 2 ∧ iPower (1 / 2 : ℚ).num = i := by
    have hnum : (1 / 2 : ℚ).num = 1 := by decide +kernel
    exact ⟨by decide +kernel, by rw [hnum]; rfl⟩
  rw [hk, rationalPower, if_neg hd, hden.1, if_neg (by decide), if_neg (by decide), if_pos rfl, hden.2]
  rcases lt_or_gt_of_ne hd with hneg | hpos
  · obtain ⟨s, ⟨hs, rfl⟩, hsq⟩ := h.positiveRoot (neg_pos.2 hneg)
    obtain ⟨j, hj⟩ := Option.isSome_iff_exists.1 h.unit
    have hi : I.HasValue i j := ⟨h.unit, by change I.i?.getD 0 = j; rw [hj, Option.getD_some]⟩
    rw [if_pos hneg]
    generalize Expr.positiveRoot (-d) (1 / 2) = root at hs hsq ⊢
    refine ⟨j * I.eval root, ((keeps_within I k).1 _).hasValue ⟨?_, ?_⟩, ?_⟩
    · simpa using ⟨hi.1, hs⟩
    · simp [hi.2]
    · have hjj := I.i_mul_self j hj
      rw [map_neg] at hsq
      linear_combination (I.eval root) ^ 2 * hjj - hsq
  · rw [if_neg (not_lt.2 hpos.le)]
    exact h.positiveRoot hpos

/-! ## Homomorphisms -/

variable {B : Type*} [CommRing B] [Algebra ℚ B] {p : String → Prop}

/-- A homomorphism takes one interpretation to another, as far as expressions in certain variables are concerned. -/
structure Hom (p : String → Prop) (I : Interpretation A) (J : Interpretation B) (φ : A →+* B) : Prop where
  var : ∀ s, p s → J.ofVar s = φ (I.ofVar s)
  call : ∀ f x a, VarsIn p x → I.call? f x = some a → J.call? f x = some (φ a)
  root : ∀ n s, I.root? n = some s → J.root? n = some (φ s)
  i : ∀ j, I.i? = some j → J.i? = some (φ j)
  lenient : I.lenient → J.lenient

variable {J : Interpretation B} {φ : A →+* B}

omit [Algebra ℚ A] [Algebra ℚ B] in
theorem Hom.admits (h : Hom p I J φ) {a : A} {n : ℤ} (hn : I.Admits a n) : J.Admits (φ a) n :=
  hn.imp (fun hu => hu.map φ) (Or.imp_right (And.imp_right h.lenient))

omit [Algebra ℚ A] [Algebra ℚ B] in
theorem Hom.rooted (h : Hom p I J φ) {b : Expr} (hb : I.Rooted b) : J.Rooted b ∧ J.rootOf b = φ (I.rootOf b) := by
  obtain ⟨m, rfl, hm, hs⟩ := hb
  obtain ⟨s, hs⟩ := Option.isSome_iff_exists.1 hs
  have hJ := h.root m s hs
  refine ⟨⟨m, rfl, hm, Option.isSome_iff_exists.2 ⟨_, hJ⟩⟩, ?_⟩
  simp [rootOf, hs, hJ]

mutual

/-- Values go along a homomorphism. -/
theorem Hom.hasValue (h : Hom p I J φ) : ∀ x, VarsIn p x → I.Defined x → J.HasValue x (φ (I.eval x))
  | .rat q, _, _ => by
    rw [eval_rat, RingHom.map_rat_algebraMap]
    exact hasValue_rat q
  | .var s, hp, _ => ⟨defined_var s, h.var s hp⟩
  | .i, _, hd => by
    obtain ⟨j, hj⟩ := Option.isSome_iff_exists.1 hd
    have hJ := h.i j hj
    refine ⟨Option.isSome_iff_exists.2 ⟨_, hJ⟩, ?_⟩
    change J.i?.getD 0 = φ (I.i?.getD 0)
    rw [hJ, hj]
    rfl
  | .fn f x, hp, hd => by
    obtain ⟨a, ha⟩ := Option.isSome_iff_exists.1 hd
    have hJ := h.call f x a hp ha
    refine ⟨Option.isSome_iff_exists.2 ⟨_, hJ⟩, ?_⟩
    change (J.call? f x).getD 0 = φ ((I.call? f x).getD 0)
    rw [hJ, ha]
    rfl
  | .add ts, hp, hd => Hom.hasValue_add h ts hp hd
  | .mul fs, hp, hd => Hom.hasValue_mul h fs hp hd
  | .pow b x, hp, hd => by
    obtain ⟨q, rfl⟩ := hd.exponent
    have hv : I.eval (.pow b (.rat q)) = if q.den = 1 then intPow (I.eval b) q.num else intPow (I.rootOf b) q.num := rfl
    rcases hd with ⟨hden, hb, hn⟩ | ⟨hden, hb⟩
    · obtain ⟨hbJ, hbv⟩ := Hom.hasValue h b hp.1 hb
      refine ⟨.inl ⟨hden, hbJ, hbv ▸ h.admits hn⟩, ?_⟩
      rw [hv, if_pos hden, map_intPow φ hn.unit_or_nonneg, ← hbv]
      exact if_pos hden
    · obtain ⟨hbJ, hbv⟩ := h.rooted hb
      refine ⟨.inr ⟨hden, hbJ⟩, ?_⟩
      rw [hv, if_neg (by omega), map_intPow φ (.inl hb.isUnit_rootOf), ← hbv]
      exact if_neg (by omega)
  | .pi, _, hd | .e, _, hd | .infinity, _, hd | .undefined, _, hd => hd.elim

theorem Hom.hasValue_add (h : Hom p I J φ) : ∀ ts, AllVarsIn p ts → I.Defined (.add ts) →
    J.HasValue (.add ts) (φ (I.eval (.add ts)))
  | [], _, _ => ⟨trivial, (map_zero φ).symm⟩
  | t :: ts, hp, hd => by
    obtain ⟨ht, hvt⟩ := Hom.hasValue h t hp.1 hd.1
    obtain ⟨hts, hvts⟩ := Hom.hasValue_add h ts hp.2 hd.2
    exact ⟨⟨ht, hts⟩, by rw [eval_add_cons, eval_add_cons, hvt, hvts, map_add]⟩

theorem Hom.hasValue_mul (h : Hom p I J φ) : ∀ fs, AllVarsIn p fs → I.Defined (.mul fs) →
    J.HasValue (.mul fs) (φ (I.eval (.mul fs)))
  | [], _, _ => ⟨trivial, (map_one φ).symm⟩
  | f :: fs, hp, hd => by
    obtain ⟨hf, hvf⟩ := Hom.hasValue h f hp.1 hd.1
    obtain ⟨hfs, hvfs⟩ := Hom.hasValue_mul h fs hp.2 hd.2
    exact ⟨⟨hf, hfs⟩, by rw [eval_mul_cons, eval_mul_cons, hvf, hvfs, map_mul]⟩

end

end Interpretation

end SymbolicSolver
