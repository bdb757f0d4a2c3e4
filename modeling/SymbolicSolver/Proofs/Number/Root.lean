import Mathlib.Algebra.Order.Ring.Nat
import Mathlib.Tactic.Linarith
import Mathlib.Tactic.Ring
import SymbolicSolver.Proofs.Number.Bits

/-!
# Floor roots and perfect powers

Newton's iteration ends at the floor of the root. The one for square roots never divides by zero and ends at most one
above the floor, to which it is then moved. So perfect powers are recognised, and nothing else is. Extracting perfect
powers keeps the product, and from what is left nothing more can be extracted, neither of the same index nor of its
double.
-/

namespace SymbolicSolver

/-! ## Newton's iteration -/

/-- The power lies above its tangent at `y`: the inequality between an arithmetic and a geometric mean with the weights
`q - 1` and `1`. -/
theorem mul_pow_le_tangent (s y k : Nat) : (k + 1) * s * y ^ k ≤ k * y * y ^ k + s ^ (k + 1) := by
  induction k with
  | zero => simp
  | succ k ih =>
    have hmean := Nat.mul_le_mul_left ((k + 1) * y ^ k) (two_mul_le_add_sq s y)
    have hstep := Nat.mul_le_mul_left s ih
    simp only [pow_succ, pow_zero, one_mul] at hmean hstep ⊢
    linarith

/-- No guess steps below a number whose power is not too large. -/
theorem le_rootStep {q n y s : Nat} (hq : 0 < q) (hy : 0 < y) (hs : s ^ q ≤ n) : s ≤ rootStep q n y := by
  obtain ⟨k, rfl⟩ := Nat.exists_eq_succ_of_ne_zero hq.ne'
  simp only [rootStep, Nat.pow_eq, Nat.succ_eq_add_one, Nat.add_sub_cancel]
  rw [Nat.le_div_iff_mul_le hq, mul_comm, ← Nat.sub_le_iff_le_add', Nat.le_div_iff_mul_le (by positivity), Nat.sub_mul,
    Nat.sub_le_iff_le_add']
  exact (mul_pow_le_tangent s y k).trans (Nat.add_le_add_left hs _)

/-- The descent from above the roots ends at a number whose power is not too large, and above all others. -/
theorem rootDescent_spec {q n y : Nat} (hq : 0 < q) (h : ∀ s, s ^ q ≤ n → s ≤ y) :
    rootDescent q n y ^ q ≤ n ∧ ∀ s, s ^ q ≤ n → s ≤ rootDescent q n y := by
  fun_induction rootDescent q n y with
  | case1 y hlt ih => exact ih fun s hs => le_rootStep hq (Nat.zero_lt_of_lt hlt) hs
  | case2 y hge =>
    refine ⟨?_, h⟩
    rcases Nat.eq_zero_or_pos y with rfl | hy
    · rw [zero_pow hq.ne']
      exact Nat.zero_le n
    · obtain ⟨k, rfl⟩ := Nat.exists_eq_succ_of_ne_zero hq.ne'
      simp only [rootStep, Nat.pow_eq, Nat.succ_eq_add_one, Nat.add_sub_cancel, not_lt] at hge ⊢
      rw [Nat.le_div_iff_mul_le hq, mul_comm, Nat.succ_mul, Nat.add_le_add_iff_left,
        Nat.le_div_iff_mul_le (by positivity), ← pow_succ'] at hge
      exact hge

/-- The power of two at which the iterations start is not below the root. -/
theorem le_two_pow_of_pow_le {q n s : Nat} (hq : 0 < q) (hs : s ^ q ≤ n) : s ≤ 2 ^ ((bitLength n + q - 1) / q) := by
  by_contra hlt
  have hexp : bitLength n ≤ (bitLength n + q - 1) / q * q := by
    have hmod := Nat.div_add_mod (bitLength n + q - 1) q
    have hrem := Nat.mod_lt (bitLength n + q - 1) hq
    rw [mul_comm]
    omega
  have hpow := Nat.pow_le_pow_left (le_of_not_ge hlt) q
  rw [← pow_mul] at hpow
  have hbits := lt_two_pow_bitLength n
  have htwo : (2 : Nat) ^ bitLength n ≤ 2 ^ ((bitLength n + q - 1) / q * q) := Nat.pow_le_pow_right (by omega) hexp
  omega

/-- The floor root is the largest natural whose power is not too large. -/
theorem floorRoot_spec {q : Nat} (hq : 0 < q) (n : Nat) : floorRoot q n ^ q ≤ n ∧ ∀ s, s ^ q ≤ n → s ≤ floorRoot q n :=
  rootDescent_spec hq fun _ hs => le_two_pow_of_pow_le hq hs

/-! ## Square roots -/

theorem sqrtStep?_of_pos {n y : Nat} (hy : 0 < y) : sqrtStep? n y = some (rootStep 2 n y) := by
  simp [sqrtStep?, hy.ne', rootStep, Nat.pow_eq]

/-- From above the root the iteration ends at the floor of the root or one above it. -/
theorem sqrtDescent?_near {n y z : Nat} (h : n.sqrt ≤ y) (hz : sqrtDescent? n y = some z) :
    n.sqrt ≤ z ∧ z ≤ n.sqrt + 1 := by
  fun_induction sqrtDescent? n y with
  | case1 => cases hz
  | case2 y next hstep hlt ih =>
    have hy : 0 < y := Nat.zero_lt_of_lt hlt
    rw [sqrtStep?_of_pos hy, Option.some.injEq] at hstep
    exact ih (hstep ▸ le_rootStep two_pos hy n.sqrt_le') hz
  | case3 y next hstep hge =>
    cases hz
    have hy : y ≠ 0 := by
      rintro rfl
      cases hstep
    rw [sqrtStep?, if_neg hy, Option.some.injEq] at hstep
    -- A guess that is not lowered is the floor of the root, and the step from there is at most one up.
    have hroot : y = n.sqrt := by
      refine le_antisymm (Nat.le_sqrt.2 ((Nat.le_div_iff_mul_le (Nat.pos_of_ne_zero hy)).1 ?_)) h
      omega
    have hquot : n / y ≤ y + 2 := by
      have hlt := n.lt_succ_sqrt
      rw [← hroot] at hlt
      rw [Nat.div_le_iff_le_mul_add_pred (Nat.pos_of_ne_zero hy)]
      nlinarith
    omega

/-- The iteration is defined, and what it ends with is moved to the floor of the root. -/
theorem floorSqrt?_eq (x : Int) : floorSqrt? x = some x.toNat.sqrt := by
  unfold floorSqrt?
  split
  · rename_i hx
    rw [Int.toNat_of_nonpos hx, Nat.sqrt_zero]
  · rename_i hx
    generalize hn : x.toNat = n
    obtain ⟨z, hz⟩ := Option.isSome_iff_exists.1 (sqrtDescent?_isSome (n := n) (by omega)
      (Nat.two_pow_pos ((bitLength n + 1) / 2)))
    obtain ⟨hle, hge⟩ := sqrtDescent?_near (le_two_pow_of_pow_le two_pos n.sqrt_le') hz
    have hlt := n.lt_succ_sqrt
    have hsq := n.sqrt_le
    have hstay : lowerRoot n n.sqrt = n.sqrt := by rw [lowerRoot, if_neg (by omega)]
    have hraise : raiseRoot n z = z := by
      rw [raiseRoot, if_neg]
      exact (hlt.trans_le (Nat.mul_le_mul (by omega) (by omega))).not_ge
    simp only [Nat.pow_eq] at hz ⊢
    rw [hz, Option.map_some, hraise]
    obtain rfl | rfl : z = n.sqrt ∨ z = n.sqrt + 1 := by omega
    · rw [hstay]
    · rw [lowerRoot, if_pos hlt, Nat.add_sub_cancel, hstay]

theorem floorSqrt_eq (x : Int) : floorSqrt x = x.toNat.sqrt := by
  simp [floorSqrt, floorSqrt?_eq]

/-! ## Exact roots -/

/-- A function that finds the floor of every root but the square root. -/
def Truncates (root : Nat → Nat → Nat) : Prop :=
  ∀ q n, 1 ≤ q → q ≠ 2 → root q n ^ q ≤ n ∧ n < (root q n + 1) ^ q

theorem floorRoot_truncates : Truncates floorRoot := by
  intro q n hq _
  obtain ⟨hle, hmax⟩ := floorRoot_spec hq n
  exact ⟨hle, lt_of_not_ge fun h => absurd (hmax _ h) (Nat.not_succ_le_self _)⟩

theorem exactRootBy?_pow {root : Nat → Nat → Nat} {q : Nat} {x : Int} {s : Nat} (h : exactRootBy? root q x = some s) :
    (s : Int) ^ q = x := by
  unfold exactRootBy? at h
  split at h
  · cases h
  · rename_i hx
    simp only [Option.ite_none_right_eq_some, Option.some.injEq, Nat.pow_eq] at h
    obtain ⟨hpow, rfl⟩ := h
    rw [← Nat.cast_pow, hpow]
    omega

theorem exactRootBy?_of_pow {root : Nat → Nat → Nat} (hroot : Truncates root) {q : Nat} (hq : 0 < q) (s : Nat) :
    exactRootBy? root q ((s ^ q : Nat) : Int) = some s := by
  unfold exactRootBy?
  rw [if_neg (by omega), Int.toNat_natCast]
  -- The candidate brackets the root, and the bracket holds one number only.
  have hfind : (if q = 2 then floorSqrt ((s ^ q : Nat) : Int) else root q (s ^ q)) = s := by
    split
    · rename_i htwo
      rw [floorSqrt_eq, Int.toNat_natCast, htwo, Nat.sqrt_eq']
    · rename_i htwo
      obtain ⟨hle, hlt⟩ := hroot q (s ^ q) hq htwo
      have hup := lt_of_pow_lt_pow_left₀ q (Nat.zero_le _) hlt
      have hdown := (Nat.pow_le_pow_iff_left hq.ne').1 hle
      omega
  simp only [hfind, Nat.pow_eq, if_pos]

/-- Integer roots are exact. The square root of what is not negative is found without a division by zero and is the
floor; a root of index `q` is found exactly for the `q`-th powers, whatever truncating function serves the indices other
than two. -/
theorem integerRoots_exact {root : Nat → Nat → Nat} (hroot : Truncates root) :
    (∀ x : Int, 0 ≤ x → floorSqrt? x = some (floorSqrt x) ∧ (floorSqrt x : Int) ^ 2 ≤ x ∧ x < (floorSqrt x + 1) ^ 2) ∧
    ∀ (q : Nat) (x s : Int), 1 ≤ q →
      ((exactRootBy? root q x).map Int.ofNat = some s ↔ 0 ≤ x ∧ 0 ≤ s ∧ s ^ q = x) := by
  refine ⟨fun x hx => ?_, fun q x s hq => ⟨fun h => ?_, ?_⟩⟩
  · rw [floorSqrt?_eq, floorSqrt_eq]
    lift x to Nat using hx
    exact ⟨rfl, by exact_mod_cast x.sqrt_le', by exact_mod_cast x.lt_succ_sqrt'⟩
  · obtain ⟨r, hr, rfl⟩ := Option.map_eq_some_iff.1 h
    have hpow := exactRootBy?_pow hr
    exact ⟨hpow ▸ pow_nonneg (Int.natCast_nonneg r) q, Int.natCast_nonneg r, hpow⟩
  · rintro ⟨-, hs, rfl⟩
    lift s to Nat using hs
    rw [← Nat.cast_pow, exactRootBy?_of_pow hroot hq]
    rfl

/-- With Newton's iteration for all indices: the bracket at a square less one, a perfect cube and its neighbour. -/
theorem integerRoots_exact_newton :
    Truncates floorRoot ∧ (0 : Int) ≤ 10 ^ 40 - 1 ∧
      (floorSqrt? (10 ^ 40 - 1) = some (floorSqrt (10 ^ 40 - 1)) ∧ (floorSqrt (10 ^ 40 - 1) : Int) ^ 2 ≤ 10 ^ 40 - 1 ∧
        10 ^ 40 - 1 < (floorSqrt (10 ^ 40 - 1) + 1 : Int) ^ 2) ∧
      1 ≤ 3 ∧ (exactRoot? 3 (10 ^ 30)).map Int.ofNat = some (10 ^ 10) ∧
      (exactRoot? 3 (10 ^ 30 + 1)).map Int.ofNat ≠ some (10 ^ 10) := by
  obtain ⟨hsqrt, hexact⟩ := integerRoots_exact floorRoot_truncates
  exact ⟨floorRoot_truncates, by norm_num, hsqrt _ (by norm_num), by norm_num,
    (hexact 3 _ _ (by norm_num)).2 ⟨by norm_num, by norm_num, by norm_num⟩,
    fun h => absurd ((hexact 3 _ _ (by norm_num)).1 h).2.2 (by norm_num)⟩

theorem exactRoot?_pow {q : Nat} {x : Int} {s : Nat} (h : exactRoot? q x = some s) : (s : Int) ^ q = x :=
  exactRootBy?_pow h

/-- Perfect powers are recognised. -/
theorem exactRoot?_of_pow {q : Nat} (hq : 0 < q) (s : Nat) : exactRoot? q ((s ^ q : Nat) : Int) = some s :=
  exactRootBy?_of_pow floorRoot_truncates hq s

theorem exactRoot?_square (s : Nat) : exactRoot? 2 ((s * s : Nat) : Int) = some s := by
  rw [← sq]
  exact exactRoot?_of_pow two_pos s

/-- What is no square has no fourth root either. -/
theorem exactRoot?_four {m : Nat} (h : exactRoot? 2 m = none) : exactRoot? 4 m = none := by
  cases hroot : exactRoot? 4 m with
  | none => rfl
  | some s =>
    have hpow := exactRoot?_pow hroot
    have hm : m = s * s * (s * s) := by
      have : (m : Int) = ((s * s * (s * s) : Nat) : Int) := by
        rw [← hpow]
        push_cast
        ring
      exact_mod_cast this
    rw [hm, exactRoot?_square] at h
    cases h

/-! ## Dividing out -/

theorem divideOut_spec (d n : Nat) : d ^ (divideOut d n).1 * (divideOut d n).2 = n := by
  fun_induction divideOut d n with
  | case1 n h rest ih =>
    rw [pow_succ', mul_assoc, ih]
    exact Nat.mul_div_cancel' (Nat.dvd_of_mod_eq_zero h.2.2)
  | case2 n h => simp

theorem divideOut_dvd (d n : Nat) : (divideOut d n).2 ∣ n :=
  ⟨_, (mul_comm _ _).trans (divideOut_spec d n) |>.symm⟩

/-- What is left has no further such factor. -/
theorem not_dvd_divideOut {d n : Nat} (hd : 2 ≤ d) (hn : 0 < n) : ¬ d ∣ (divideOut d n).2 := by
  fun_induction divideOut d n with
  | case1 n h rest ih => exact ih (Nat.div_pos (Nat.le_of_dvd hn (Nat.dvd_of_mod_eq_zero h.2.2)) (by omega))
  | case2 n h => exact fun hdvd => h ⟨hd, hn, Nat.mod_eq_zero_of_dvd hdvd⟩

theorem divideOut_of_not_dvd {d n : Nat} (h : ¬ d ∣ n) : divideOut d n = (0, n) := by
  rw [divideOut, dif_neg fun hd => h (Nat.dvd_of_mod_eq_zero hd.2.2)]

/-! ## Extracting perfect powers -/

theorem extractFrom_spec (q p s rest : Nat) :
    (extractFrom q p s rest).1 ^ q * (extractFrom q p s rest).2 = s ^ q * rest := by
  fun_induction extractFrom q p s rest with
  | case1 p s rest h out ih =>
    have hout : (p ^ q) ^ out.1 * out.2 = rest := divideOut_spec _ _
    rw [ih, ← hout, Nat.pow_eq, mul_pow, ← pow_mul, ← pow_mul, mul_comm out.1 q]
    ring
  | case2 p s rest h => rfl

theorem extractFrom_dvd (q p s rest : Nat) : (extractFrom q p s rest).2 ∣ rest := by
  fun_induction extractFrom q p s rest with
  | case1 p s rest h out ih => exact ih.trans (divideOut_dvd _ _)
  | case2 p s rest h => exact dvd_rfl

/-- The part extracted from a positive natural and the part left are positive, and they give the natural back. -/
theorem extractFrom_parts {q n : Nat} (hq : q ≠ 0) (hn : 0 < n) :
    0 < (extractFrom q 2 1 n).1 ∧ 0 < (extractFrom q 2 1 n).2 ∧
      (extractFrom q 2 1 n).1 ^ q * (extractFrom q 2 1 n).2 = n := by
  have hspec := extractFrom_spec q 2 1 n
  rw [one_pow, one_mul] at hspec
  refine ⟨Nat.pos_of_ne_zero fun h => ?_, Nat.pos_of_dvd_of_pos (extractFrom_dvd q 2 1 n) hn, hspec⟩
  rw [h, zero_pow hq, zero_mul] at hspec
  omega

/-- A positive integer goes through the trials from two on; one passes them unchanged. -/
theorem extractPower_natCast {q n : Nat} (hq : 2 ≤ q) (hn : 0 < n) :
    extractPower q n = (((extractFrom q 2 1 n).1 : Int), ((extractFrom q 2 1 n).2 : Int)) := by
  unfold extractPower
  split
  · obtain rfl : n = 1 := by omega
    have hlarge : ¬(Nat.pow 2 q ≤ 1) := by
      rw [Nat.pow_eq, not_le]
      exact Nat.one_lt_two_pow (by omega)
    rw [extractFrom, dif_neg fun h => hlarge h.1]
    rfl
  · rw [Int.toNat_natCast]

/-- No `q`-th power of a trial divisor from `p` on can be extracted. -/
def PowerFree (q p m : Nat) : Prop := ∀ s, extractFrom q p s m = (s, m)

/-- One trial more: it is too large, or its power does not divide. -/
theorem powerFree_step {q p m : Nat} (h : p ^ q ≤ m → p ≤ trialBound → ¬ p ^ q ∣ m ∧ PowerFree q (nextTrial p) m) :
    PowerFree q p m := by
  intro s
  rw [extractFrom]
  split
  · rename_i hp
    obtain ⟨hdvd, hnext⟩ := h (by simpa [Nat.pow_eq] using hp.1) hp.2
    rw [Nat.pow_eq, divideOut_of_not_dvd hdvd]
    show extractFrom q (nextTrial p) (s * 1) m = (s, m)
    rw [mul_one]
    exact hnext s
  · rfl

/-- What is left after extraction is free of further powers. -/
theorem extractFrom_powerFree {q p s rest : Nat} (hq : q ≠ 0) (hp : 2 ≤ p) (hrest : 0 < rest) :
    PowerFree q p (extractFrom q p s rest).2 := by
  fun_induction extractFrom q p s rest with
  | case1 p s rest h out ih =>
    have hpow : 2 ≤ p.pow q := by
      rw [Nat.pow_eq]
      exact hp.trans (Nat.le_self_pow hq p)
    have hpos : 0 < out.2 := Nat.pos_of_dvd_of_pos (divideOut_dvd _ _) hrest
    refine powerFree_step fun _ _ => ⟨fun hdvd => ?_, ih (hp.trans (lt_nextTrial p).le) hpos⟩
    exact not_dvd_divideOut hpow hrest ((Nat.pow_eq (m := p) (n := q) ▸ hdvd).trans (extractFrom_dvd _ _ _ _))
  | case2 p s rest h =>
    exact powerFree_step fun hle hbound => absurd ⟨by simpa [Nat.pow_eq] using hle, hbound⟩ h

theorem PowerFree.next {q p m : Nat} (h : PowerFree q p m) (hq : q ≠ 0) (hp : 2 ≤ p) (hm : 0 < m) (hle : p ^ q ≤ m)
    (hbound : p ≤ trialBound) : ¬ p ^ q ∣ m ∧ PowerFree q (nextTrial p) m := by
  have hstep (s : Nat) : extractFrom q (nextTrial p) (s * p.pow (divideOut (p.pow q) m).1)
      (divideOut (p.pow q) m).2 = (s, m) := by
    have hs := h s
    rwa [extractFrom, dif_pos ⟨by simpa [Nat.pow_eq] using hle, hbound⟩] at hs
  -- The division by the trial power gives back a divisor of itself, so it divides nothing out.
  have hsame : (divideOut (p.pow q) m).2 = m := by
    refine Nat.dvd_antisymm (divideOut_dvd _ _) ?_
    have hdvd := extractFrom_dvd q (nextTrial p) (1 * p.pow (divideOut (p.pow q) m).1) (divideOut (p.pow q) m).2
    rwa [hstep 1] at hdvd
  have hpow : 2 ≤ p.pow q := by
    rw [Nat.pow_eq]
    exact hp.trans (Nat.le_self_pow hq p)
  have hnot : ¬ p.pow q ∣ m := fun hdvd => not_dvd_divideOut hpow hm (hsame.symm ▸ hdvd)
  refine ⟨by rwa [Nat.pow_eq] at hnot, fun s => ?_⟩
  have hs := hstep s
  rwa [divideOut_of_not_dvd hnot, Nat.pow_eq, pow_zero, mul_one] at hs

/-- Free of squares is free of fourth powers. -/
theorem PowerFree.four {p m : Nat} (h : PowerFree 2 p m) (hp : 2 ≤ p) (hm : 0 < m) : PowerFree 4 p m := by
  induction hk : trialBound + 1 - p using Nat.strong_induction_on generalizing p with
  | _ k ih =>
    refine powerFree_step fun hle hbound => ?_
    have hsq : p ^ 2 ∣ p ^ 4 := pow_dvd_pow p (by omega)
    have hle2 : p ^ 2 ≤ m := (Nat.le_of_dvd (by positivity) hsq).trans hle
    obtain ⟨hnot, hnext⟩ := h.next two_ne_zero hp hm hle2 hbound
    have hlt := lt_nextTrial p
    exact ⟨fun hdvd => hnot (hsq.trans hdvd), ih _ (by omega) hnext (by omega) rfl⟩

theorem extractPower_of_powerFree {q m : Nat} (hq : 2 ≤ q) (hm : 0 < m) (h : PowerFree q 2 m) :
    extractPower q m = (1, (m : Int)) := by
  rw [extractPower_natCast hq hm, h 1]
  rfl

/-- Extracting squares from a natural that is none leaves a square-free part that is none. -/
theorem extractPower_two {n : Nat} (hn : 2 ≤ n) (hsquare : exactRoot? 2 n = none) :
    ∃ s m : Nat, extractPower 2 n = ((s : Int), (m : Int)) ∧ n = s ^ 2 * m ∧ 2 ≤ m ∧
      exactRoot? 2 m = none ∧ PowerFree 2 2 m := by
  have hpos : 0 < n := by omega
  obtain ⟨-, hm, hspec⟩ := extractFrom_parts two_ne_zero hpos
  refine ⟨_, _, extractPower_natCast le_rfl hpos, hspec.symm, ?_, ?_, extractFrom_powerFree two_ne_zero le_rfl hpos⟩
  all_goals
    generalize (extractFrom 2 2 1 n).1 = s at hspec
    generalize (extractFrom 2 2 1 n).2 = m at hspec hm
  · by_contra hlt
    obtain rfl : m = 1 := by omega
    rw [← hspec, mul_one, sq, exactRoot?_square] at hsquare
    cases hsquare
  · cases hroot : exactRoot? 2 m with
    | none => rfl
    | some t =>
      have ht : m = t * t := by
        have := exactRoot?_pow hroot
        rw [sq] at this
        exact_mod_cast this.symm
      have hn' : n = s * t * (s * t) := by
        rw [← hspec, ht]
        ring
      rw [hn', exactRoot?_square] at hsquare
      cases hsquare

end SymbolicSolver
