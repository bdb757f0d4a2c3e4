import Mathlib.Algebra.CharZero.Infinite
import Mathlib.Algebra.MvPolynomial.Funext
import Mathlib.Algebra.MvPolynomial.Supported
import SymbolicSolver.Proofs.Interpretation.Point

/-!
# Values as quotients of polynomials

What has a value at one point has one wherever a certain polynomial does not vanish, and there the value is a quotient
of polynomials in the variables that occur. So two expressions that agree off the zeros of some polynomial agree
wherever both have values.
-/

namespace SymbolicSolver

open MvPolynomial (aeval supported)

namespace Interpretation

open Expr

/-! ## Points of either kind -/

/-- The interpretation by a point, with or without a value for zero to the power zero. -/
def pointAs (l : Prop) {A : Type*} [CommRing A] (ρ : String → A) : Interpretation A := { point ρ with lenient := l }

section Lenient

variable {ρ : String → ℚ}

theorem admits_lenient {a : ℚ} {n : ℤ} : (pointAs True ρ).Admits a n ↔ 0 ≤ n ∨ a ≠ 0 := by
  simp only [Admits, pointAs, isUnit_iff_ne_zero, and_true]
  rw [or_comm, ← le_iff_lt_or_eq']

mutual

/-- The values under an assignment are those at the point where anything to the power zero is one. -/
theorem defined_lenient_iff : ∀ x : Expr, ((pointAs True ρ).Defined x ↔ DefinedAt ρ x) ∧
    (DefinedAt ρ x → (pointAs True ρ).eval x = valueAt ρ x)
  | .rat _ => ⟨Iff.rfl, fun _ => rfl⟩
  | .var _ => ⟨Iff.rfl, fun _ => rfl⟩
  | .add ts => defined_lenient_add ts
  | .mul fs => defined_lenient_mul fs
  | .pow b x => by
    obtain ⟨hb, hvb⟩ := defined_lenient_iff b
    have hpow (n : ℤ) : ((pointAs True ρ).Defined (pow b (rat n)) ↔ DefinedAt ρ (pow b (rat n))) ∧
        (DefinedAt ρ (pow b (rat n)) → (pointAs True ρ).eval (pow b (rat n)) = valueAt ρ (pow b (rat n))) := by
      have hiff := Expr.defined_pow_int (r := .ofVars ρ) b n
      constructor
      · refine (defined_pow_int b n).trans (Iff.trans ?_ hiff.symm)
        rw [hb]
        refine and_congr_right fun h => ?_
        rw [hvb h, admits_lenient]
      · intro h
        rw [valueAt, Expr.eval_pow_int, eval_pow_int, intPow_eq_zpow, hvb (hiff.1 h).1]
    constructor
    · constructor
      · intro hd
        obtain ⟨q, rfl⟩ := hd.exponent
        obtain ⟨n, rfl, -⟩ | ⟨⟨m, -, -, hm⟩, -⟩ := hd.pow_cases
        · exact (hpow n).1.1 hd
        · cases hm
      · intro hd
        obtain ⟨q, rfl⟩ := Expr.Defined.exponent hd
        have hq : q = (q.num : ℚ) := (Rat.coe_int_num_of_den_eq_one hd.2.1).symm
        rw [hq] at hd ⊢
        exact (hpow q.num).1.2 hd
    · intro hd
      obtain ⟨q, rfl⟩ := Expr.Defined.exponent hd
      have hq : q = (q.num : ℚ) := (Rat.coe_int_num_of_den_eq_one hd.2.1).symm
      rw [hq] at hd ⊢
      exact (hpow q.num).2 hd
  | .fn f u => by
    constructor <;> simp [Defined, Expr.Defined, pointAs, point, Reading.ofVars]
  | .i => by
    constructor <;> simp [Defined, pointAs, point]
  | .pi | .e | .infinity | .undefined => ⟨Iff.rfl, fun h => h.elim⟩

theorem defined_lenient_add : ∀ ts : List Expr, ((pointAs True ρ).Defined (.add ts) ↔ DefinedAt ρ (.add ts)) ∧
    (DefinedAt ρ (.add ts) → (pointAs True ρ).eval (.add ts) = valueAt ρ (.add ts))
  | [] => ⟨Iff.rfl, fun _ => rfl⟩
  | t :: ts => by
    obtain ⟨ht, hvt⟩ := defined_lenient_iff t
    obtain ⟨hts, hvts⟩ := defined_lenient_add ts
    exact ⟨and_congr ht hts, fun h => congrArg₂ (· + ·) (hvt h.1) (hvts h.2)⟩

theorem defined_lenient_mul : ∀ fs : List Expr, ((pointAs True ρ).Defined (.mul fs) ↔ DefinedAt ρ (.mul fs)) ∧
    (DefinedAt ρ (.mul fs) → (pointAs True ρ).eval (.mul fs) = valueAt ρ (.mul fs))
  | [] => ⟨Iff.rfl, fun _ => rfl⟩
  | f :: fs => by
    obtain ⟨hf, hvf⟩ := defined_lenient_iff f
    obtain ⟨hfs, hvfs⟩ := defined_lenient_mul fs
    exact ⟨and_congr hf hfs, fun h => congrArg₂ (· * ·) (hvf h.1) (hvfs h.2)⟩

end

theorem hasValue_lenient {x : Expr} (h : DefinedAt ρ x) : (pointAs True ρ).HasValue x (valueAt ρ x) :=
  ⟨(defined_lenient_iff x).1.2 h, (defined_lenient_iff x).2 h⟩

theorem HasValue.definedAt {x : Expr} {a : ℚ} (h : (pointAs True ρ).HasValue x a) : DefinedAt ρ x ∧ valueAt ρ x = a := by
  have hd := (defined_lenient_iff x).1.1 h.1
  exact ⟨hd, ((defined_lenient_iff x).2 hd).symm.trans h.2⟩

end Lenient

/-! ## Quotients -/

/-- Off the zeros of `M` the values of an expression are `N / M`, in every ring. -/
structure IsQuotient (l : Prop) (p : String → Prop) (x : Expr) (N M : MvPolynomial String ℚ) : Prop where
  num_mem : N ∈ supported ℚ {s | p s}
  den_mem : M ∈ supported ℚ {s | p s}
  value : ∀ (A : Type) [CommRing A] [Algebra ℚ A] (ρ : String → A), IsUnit (aeval ρ M) →
    ∃ v, (pointAs l ρ).HasValue x v ∧ v * aeval ρ M = aeval ρ N

section Quotients

variable {l : Prop} {p : String → Prop} {x y : Expr} {N M N' M' : MvPolynomial String ℚ}

theorem isQuotient_rat (q : ℚ) : IsQuotient l p (rat q) (.C q) 1 where
  num_mem := (supported ℚ _).algebraMap_mem q
  den_mem := one_mem _
  value A _ _ ρ _ := ⟨_, hasValue_rat q, by simp⟩

theorem isQuotient_var {s : String} (hs : p s) : IsQuotient l p (var s) (.X s) 1 where
  num_mem := MvPolynomial.X_mem_supported.2 hs
  den_mem := one_mem _
  value A _ _ ρ _ := ⟨_, hasValue_var s, by simp [pointAs]⟩

theorem IsQuotient.add_cons {t : Expr} {ts : List Expr} (ht : IsQuotient l p t N M)
    (hts : IsQuotient l p (.add ts) N' M') : IsQuotient l p (.add (t :: ts)) (N * M' + N' * M) (M * M') where
  num_mem := add_mem (mul_mem ht.num_mem hts.den_mem) (mul_mem hts.num_mem ht.den_mem)
  den_mem := mul_mem ht.den_mem hts.den_mem
  value A _ _ ρ hu := by
    rw [map_mul] at hu
    obtain ⟨a, ⟨hda, rfl⟩, ha⟩ := ht.value A ρ (isUnit_of_mul_isUnit_left hu)
    obtain ⟨b, ⟨hdb, rfl⟩, hb⟩ := hts.value A ρ (isUnit_of_mul_isUnit_right hu)
    refine ⟨_, ⟨⟨hda, hdb⟩, eval_add_cons t ts⟩, ?_⟩
    simp only [map_add, map_mul, ← ha, ← hb]
    ring

theorem IsQuotient.mul_cons {f : Expr} {fs : List Expr} (hf : IsQuotient l p f N M)
    (hfs : IsQuotient l p (.mul fs) N' M') : IsQuotient l p (.mul (f :: fs)) (N * N') (M * M') where
  num_mem := mul_mem hf.num_mem hfs.num_mem
  den_mem := mul_mem hf.den_mem hfs.den_mem
  value A _ _ ρ hu := by
    rw [map_mul] at hu
    obtain ⟨a, ⟨hda, rfl⟩, ha⟩ := hf.value A ρ (isUnit_of_mul_isUnit_left hu)
    obtain ⟨b, ⟨hdb, rfl⟩, hb⟩ := hfs.value A ρ (isUnit_of_mul_isUnit_right hu)
    refine ⟨_, ⟨⟨hda, hdb⟩, eval_mul_cons f fs⟩, ?_⟩
    simp only [map_mul, ← ha, ← hb]
    ring

theorem IsQuotient.pow_natCast {n : ℕ} (hx : IsQuotient l p x N M) (hn : 0 < n ∨ l) :
    IsQuotient l p (.pow x (rat (n : ℤ))) (N ^ n * M) (M ^ n * M) where
  num_mem := mul_mem (pow_mem hx.num_mem n) hx.den_mem
  den_mem := mul_mem (pow_mem hx.den_mem n) hx.den_mem
  value A _ _ ρ hu := by
    rw [map_mul] at hu
    obtain ⟨a, ⟨hd, rfl⟩, ha⟩ := hx.value A ρ (isUnit_of_mul_isUnit_right hu)
    have hadmits : (pointAs l ρ).Admits ((pointAs l ρ).eval x) n := by
      rcases hn with hn | hl
      · exact .inr (.inl (by exact_mod_cast hn))
      · rcases Nat.eq_zero_or_pos n with rfl | hn
        · exact .inr (.inr ⟨rfl, hl⟩)
        · exact .inr (.inl (by exact_mod_cast hn))
    refine ⟨_, ⟨(defined_pow_int x n).2 ⟨hd, hadmits⟩, eval_pow_int x n⟩, ?_⟩
    rw [intPow_natCast]
    simp only [map_mul, map_pow, ← ha]
    ring

theorem IsQuotient.pow_of_unit (hx : IsQuotient l p x N M) (n : ℤ) :
    ∃ N' : MvPolynomial String ℚ, IsQuotient l p (.pow x (rat n)) N' ((M * N) ^ (n.natAbs + 1)) := by
  have hunits (A : Type) [CommRing A] [Algebra ℚ A] (ρ : String → A) (hu : IsUnit (aeval ρ ((M * N) ^ (n.natAbs + 1)))) :
      ∃ a : Aˣ, (pointAs l ρ).HasValue x a ∧ a * aeval ρ M = aeval ρ N ∧
        (pointAs l ρ).HasValue (.pow x (rat n)) ((a ^ n : Aˣ) : A) := by
    rw [map_pow, isUnit_pow_iff (Nat.succ_ne_zero _), map_mul] at hu
    obtain ⟨a, ⟨hd, rfl⟩, ha⟩ := hx.value A ρ (isUnit_of_mul_isUnit_left hu)
    have hau : IsUnit ((pointAs l ρ).eval x) := isUnit_of_mul_isUnit_left (ha ▸ isUnit_of_mul_isUnit_right hu)
    obtain ⟨u, heq⟩ := id hau
    refine ⟨u, ⟨hd, heq.symm⟩, heq ▸ ha, (defined_pow_int x n).2 ⟨hd, .inl hau⟩, ?_⟩
    rw [eval_pow_int, ← heq, intPow_unit]
  have hden : (M * N) ^ (n.natAbs + 1) ∈ supported ℚ {s | p s} := pow_mem (mul_mem hx.den_mem hx.num_mem) _
  rcases Int.natAbs_eq n with hn | hn
  · refine ⟨N ^ n.natAbs * N ^ n.natAbs * (M * N), mul_mem (mul_mem (pow_mem hx.num_mem _) (pow_mem hx.num_mem _))
      (mul_mem hx.den_mem hx.num_mem), hden, fun A _ _ ρ hu => ?_⟩
    obtain ⟨a, -, ha, hpow⟩ := hunits A ρ hu
    refine ⟨_, hpow, ?_⟩
    nth_rewrite 1 [hn]
    simp only [zpow_natCast, Units.val_pow_eq_pow_val, map_mul, map_pow, ← ha]
    ring
  · refine ⟨M ^ n.natAbs * M ^ n.natAbs * (M * N), mul_mem (mul_mem (pow_mem hx.den_mem _) (pow_mem hx.den_mem _))
      (mul_mem hx.den_mem hx.num_mem), hden, fun A _ _ ρ hu => ?_⟩
    obtain ⟨a, -, ha, hpow⟩ := hunits A ρ hu
    refine ⟨_, hpow, ?_⟩
    nth_rewrite 1 [hn]
    have hinv : ((a⁻¹ : Aˣ) : A) * a = 1 := a.inv_mul
    simp only [zpow_neg, zpow_natCast, ← inv_pow, Units.val_pow_eq_pow_val, map_mul, map_pow, ← ha]
    have hpower : ((a⁻¹ : Aˣ) : A) ^ n.natAbs * (a : A) ^ n.natAbs = 1 := by rw [← mul_pow, hinv, one_pow]
    linear_combination (a * aeval ρ M ^ 2) * (aeval ρ M ^ n.natAbs) ^ 2 * hpower

mutual

/-- An expression with a value at a point is a quotient of polynomials whose denominator does not vanish there. -/
theorem exists_isQuotient {ρ : String → ℚ} : ∀ x : Expr, VarsIn p x → (pointAs l ρ).Defined x →
    ∃ N M, IsQuotient l p x N M ∧ aeval ρ M ≠ 0
  | .rat q, _, _ => ⟨_, _, isQuotient_rat q, by simp⟩
  | .var s, hs, _ => ⟨_, _, isQuotient_var hs, by simp⟩
  | .add ts, hp, hd => exists_isQuotient_add ts hp hd
  | .mul fs, hp, hd => exists_isQuotient_mul fs hp hd
  | .pow b x, hp, hd => by
    obtain ⟨q, rfl⟩ := hd.exponent
    obtain ⟨n, rfl, hb, hn⟩ | ⟨⟨m, -, -, hm⟩, -⟩ := hd.pow_cases
    · obtain ⟨N, M, hquot, hM⟩ := exists_isQuotient b hp.1 hb
      obtain ⟨v, ⟨-, hv⟩, heq⟩ := hquot.value ℚ ρ hM.isUnit
      rcases hn with hu | hn
      · obtain ⟨N', hpow⟩ := hquot.pow_of_unit n
        refine ⟨N', _, hpow, ?_⟩
        rw [map_pow, map_mul, ← heq, ← hv]
        exact pow_ne_zero _ (mul_ne_zero hM (mul_ne_zero hu.ne_zero hM))
      · obtain ⟨m, rfl⟩ := Int.eq_ofNat_of_zero_le (hn.elim le_of_lt fun h => h.1.ge)
        refine ⟨_, _, hquot.pow_natCast (hn.imp (by omega) And.right), ?_⟩
        rw [map_mul, map_pow]
        exact mul_ne_zero (pow_ne_zero _ hM) hM
    · cases hm
  | .fn f u, _, hd => by cases hd
  | .i, _, hd => by cases hd
  | .pi, _, hd | .e, _, hd | .infinity, _, hd | .undefined, _, hd => hd.elim

theorem exists_isQuotient_add {ρ : String → ℚ} : ∀ ts : List Expr, AllVarsIn p ts → (pointAs l ρ).Defined (.add ts) →
    ∃ N M, IsQuotient l p (.add ts) N M ∧ aeval ρ M ≠ 0
  | [], _, _ => ⟨0, 1, ⟨zero_mem _, one_mem _, fun A _ _ ρ _ => ⟨0, ⟨trivial, rfl⟩, by simp⟩⟩, by simp⟩
  | t :: ts, hp, hd => by
    obtain ⟨N, M, ht, hM⟩ := exists_isQuotient t hp.1 hd.1
    obtain ⟨N', M', hts, hM'⟩ := exists_isQuotient_add ts hp.2 hd.2
    exact ⟨_, _, ht.add_cons hts, by simpa using ⟨hM, hM'⟩⟩

theorem exists_isQuotient_mul {ρ : String → ℚ} : ∀ fs : List Expr, AllVarsIn p fs → (pointAs l ρ).Defined (.mul fs) →
    ∃ N M, IsQuotient l p (.mul fs) N M ∧ aeval ρ M ≠ 0
  | [], _, _ => ⟨1, 1, ⟨one_mem _, one_mem _, fun A _ _ ρ _ => ⟨1, ⟨trivial, rfl⟩, by simp⟩⟩, by simp⟩
  | f :: fs, hp, hd => by
    obtain ⟨N, M, hf, hM⟩ := exists_isQuotient f hp.1 hd.1
    obtain ⟨N', M', hfs, hM'⟩ := exists_isQuotient_mul fs hp.2 hd.2
    exact ⟨_, _, hf.mul_cons hfs, by simpa using ⟨hM, hM'⟩⟩

end

end Quotients

/-! ## Agreement -/

theorem ne_zero_of_aeval {σ : String → ℚ} {P : MvPolynomial String ℚ} (h : aeval σ P ≠ 0) : P ≠ 0 := by
  rintro rfl
  exact h (map_zero _)

end Interpretation

end SymbolicSolver
