import SymbolicSolver.Proofs.Number.Root

/-!
# Extracting perfect powers

Trial division by two and the odd numbers misses no power up to its bound. The invariant of the trials is that no number
below the current one has a power that divides what is left. An even number between two trials is no exception, as with
its power that of two would divide. When the power of the trial exceeds what is left, neither it nor any later one
divides.
-/

namespace SymbolicSolver

/-- No number from two up to but not including `p` has a `q`-th power that divides `m`. -/
def FreeBelow (q p m : Nat) : Prop := ∀ r, 2 ≤ r → r < p → ¬ r ^ q ∣ m

/-- The trial divisors: two and the odd numbers above. -/
def IsTrial (p : Nat) : Prop := p = 2 ∨ 2 < p ∧ p % 2 = 1

theorem isTrial_nextTrial {p : Nat} (h : IsTrial p) : IsTrial (nextTrial p) := by
  unfold IsTrial nextTrial at *
  split <;> omega

namespace FreeBelow

theorem of_dvd {q p m k : Nat} (h : FreeBelow q p m) (hdvd : k ∣ m) : FreeBelow q p k :=
  fun r hr hlt hr' => h r hr hlt (hr'.trans hdvd)

/-- A trial whose power does not divide: the number skipped before the next trial is even. -/
theorem next {q p m : Nat} (h : FreeBelow q p m) (hp : IsTrial p) (hnot : ¬ p ^ q ∣ m) :
    FreeBelow q (nextTrial p) m := by
  intro r hr hlt hdvd
  by_cases hlow : r < p
  · exact h r hr hlow hdvd
  by_cases heq : r = p
  · exact hnot (heq ▸ hdvd)
  -- One number is left between an odd trial and the next, and two divides it.
  obtain ⟨hodd, rfl⟩ : (2 < p ∧ p % 2 = 1) ∧ r = p + 1 := by
    unfold IsTrial nextTrial at *
    split at hlt <;> omega
  have htwo : 2 ∣ p + 1 := by omega
  exact h 2 le_rfl hodd.1 ((pow_dvd_pow_of_dvd htwo q).trans hdvd)

/-- The trials end at the bound, or earlier with powers that are too large to divide. -/
theorem of_stop {q p m : Nat} (h : FreeBelow q p m) (hm : 0 < m) (hstop : ¬(p ^ q ≤ m ∧ p ≤ trialBound)) :
    FreeBelow q (trialBound + 1) m := by
  intro r hr hlt hdvd
  by_cases hlow : r < p
  · exact h r hr hlow hdvd
  · refine hstop ⟨?_, by omega⟩
    exact (Nat.pow_le_pow_left (by omega) q).trans (Nat.le_of_dvd hm hdvd)

end FreeBelow

/-- The trials from `p` on leave nothing up to the bound. -/
theorem extractFrom_freeBelow {q p s rest : Nat} (hq : q ≠ 0) (hp : IsTrial p) (hrest : 0 < rest)
    (h : FreeBelow q p rest) : FreeBelow q (trialBound + 1) (extractFrom q p s rest).2 := by
  fun_induction extractFrom q p s rest with
  | case1 p s rest hgo out ih =>
    -- What is left divides what was there, so the numbers below stay free of it; the trial itself is divided out.
    have hpow : 2 ≤ p ^ q := by
      have htwo : 2 ≤ p := by
        unfold IsTrial at hp
        omega
      exact htwo.trans (Nat.le_self_pow hq p)
    have hdvd : out.2 ∣ rest := divideOut_dvd _ _
    have hnot : ¬ p ^ q ∣ out.2 := not_dvd_divideOut hpow hrest
    exact ih (isTrial_nextTrial hp) (Nat.pos_of_dvd_of_pos hdvd hrest) ((h.of_dvd hdvd).next hp hnot)
  | case2 p s rest hstop => exact h.of_stop hrest (by simpa [Nat.pow_eq] using hstop)

/-- Extraction is exact, and complete up to the largest trial divisor: nothing more can be extracted afterwards. -/
theorem extractPower_complete {q : Nat} (hq : 2 ≤ q) {n : Int} (hn : 1 ≤ n) :
    ∃ s t : Int, extractPower q n = (s, t) ∧ n = s ^ q * t ∧ 1 ≤ s ∧ 1 ≤ t ∧
      (∀ p : Int, 2 ≤ p → p ≤ 100000 → ¬ p ^ q ∣ t) ∧ extractPower q t = (1, t) := by
  lift n to Nat using by omega
  have hpos : 0 < n := by omega
  obtain ⟨hs, ht, hspec⟩ := extractFrom_parts (by omega : q ≠ 0) hpos
  have hfree : FreeBelow q (trialBound + 1) (extractFrom q 2 1 n).2 :=
    extractFrom_freeBelow (by omega) (.inl rfl) hpos fun r hr hlt => by omega
  have hagain := extractPower_of_powerFree hq ht (extractFrom_powerFree (by omega) le_rfl hpos)
  refine ⟨_, _, extractPower_natCast hq hpos, by exact_mod_cast hspec.symm, by omega, by omega, ?_, hagain⟩
  intro p hp hbound hdvd
  lift p to Nat using by omega
  exact hfree p (by omega) (by unfold trialBound; omega) (by exact_mod_cast hdvd)

/-- The factor six is no trial divisor, and `100003` lies above the bound. -/
theorem extractPower_complete_large :
    2 ≤ 3 ∧ (1 : Int) ≤ 6 ^ 4 * 100003 ^ 3 ∧
      ∃ s t : Int, extractPower 3 (6 ^ 4 * 100003 ^ 3) = (s, t) ∧ 6 ^ 4 * 100003 ^ 3 = s ^ 3 * t ∧ 1 ≤ s ∧ 1 ≤ t ∧
        (∀ p : Int, 2 ≤ p → p ≤ 100000 → ¬ p ^ 3 ∣ t) ∧ extractPower 3 t = (1, t) :=
  ⟨by norm_num, by norm_num, extractPower_complete (by norm_num) (by norm_num)⟩

end SymbolicSolver
