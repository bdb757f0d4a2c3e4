import Mathlib.Data.Nat.GCD.Basic
import SymbolicSolver.Proofs.Canonical.Constructed
import SymbolicSolver.Proofs.Canonical.Weight

/-!
# Trees whose nodes stand

A power that a step has left as it is will be left again, and an application that its function has found no other form
for will find none again. A tree is settled if it is well formed and this holds of all its powers and applications; so
nothing happens to a settled power or application when it is built anew. The terms of a settled sum are not all
rationals and infinities, so every base that a product collects has some weight.

The sum of settled trees is settled, and the roots of naturals that a rational power takes out stand.
-/

namespace SymbolicSolver.Expr

variable {x b t : Expr} {ts fs : List Expr}

/-! ## Standing trees -/

mutual

/-- Every power in the tree is left as it is by a step and every application by its function, and every sum has some
weight. -/
def Standing : Expr → Prop
  | add ts => 0 < weightAll ts ∧ AllStanding ts
  | mul fs => AllStanding fs
  | pow b x => Stands b x ∧ Standing b ∧ Standing x
  | fn f x => apply f x = fn f x ∧ Standing x
  | _ => True

/-- The trees of a list are standing. -/
def AllStanding : List Expr → Prop
  | [] => True
  | x :: xs => Standing x ∧ AllStanding xs

end

theorem allStanding_iff (xs : List Expr) : AllStanding xs ↔ ∀ x ∈ xs, Standing x := by
  induction xs with
  | nil => simp [AllStanding]
  | cons x xs ih => simp [AllStanding, ih]

theorem standing_add : Standing (add ts) ↔ 0 < (ts.map weight).sum ∧ ∀ t ∈ ts, Standing t := by
  rw [← weightAll_eq, ← allStanding_iff]
  rfl

theorem factorwise_standing : Factorwise Standing where
  rat _ := trivial
  i := trivial
  undefined := trivial
  mul := allStanding_iff

/-- A tree that canonical operations may be left with. -/
structure Settled (x : Expr) : Prop where
  wellFormed : WellFormed x
  standing : Standing x

namespace Settled

theorem regular (h : Settled x) (hx : x ≠ undefined) : Regular x := h.wellFormed.regular hx

theorem of_regular (h : Regular x) (hs : Standing x) : Settled x := ⟨h.wellFormed, hs⟩

@[simp] theorem rat (q : Rat) : Settled (rat q) := of_regular trivial trivial

@[simp] theorem infinity : Settled infinity := of_regular trivial trivial

theorem undefined : Settled undefined := ⟨wellFormed_undefined, trivial⟩

theorem terms (h : Settled (add ts)) : ∀ t ∈ ts, Settled t := fun t ht =>
  of_regular ((regular_add.1 (h.regular (by simp))).2 t ht) ((standing_add.1 h.standing).2 t ht)

theorem factors (h : Settled (mul fs)) : ∀ f ∈ fs, Settled f := fun f hf =>
  of_regular ((regular_mul.1 (h.regular (by simp))).2 f hf) ((factorwise_standing.mul fs).1 h.standing f hf)

theorem base (h : Settled (pow b x)) : Settled b := of_regular (h.regular (by simp)).2.1 h.standing.2.1

theorem exponent (h : Settled (pow b x)) : Settled x := of_regular (h.regular (by simp)).2.2 h.standing.2.2

theorem arg {f : Func} (h : Settled (fn f x)) : Settled x := of_regular (h.regular (by simp)) h.standing.2

theorem splitCoeff (h : Settled x) : Settled x.splitCoeff.2 :=
  ⟨closed_wellFormed.splitCoeff h.wellFormed, factorwise_standing.splitCoeff h.standing⟩

end Settled

/-! ## Weights of bases -/

theorem unitWeight_pos {q : Rat} (hq : q ≠ 1) : 0 < unitWeight q := by
  by_contra hzero
  refine hq ?_
  simp only [unitWeight] at hzero
  split at hzero <;> split at hzero <;> split at hzero <;> try omega
  rename_i hnum hden hneg
  have hnonneg := Rat.num_nonneg.2 (not_lt.1 hneg)
  exact Rat.ext (by simp only [Rat.num_ofNat]; omega) (by simpa using hden)

/-- Other than one, a base that is no product has some weight. -/
theorem Settled.factorWeight_pos (h : Settled b) (hu : b ≠ .undefined) (h1 : b.isOne = false)
    (hp : b.isProduct = false) : 0 < baseWeight b := by
  cases b with
  | rat q =>
    rw [baseWeight_rat]
    exact unitWeight_pos (by simpa [isOne] using h1)
  | undefined => exact absurd rfl hu
  | mul fs => cases hp
  | add ts =>
    have hpos := (standing_add.1 h.standing).1
    exact (weight_add ts ▸ hpos).trans_le (weight_le_baseWeight _)
  | pow c y => exact Nat.succ_pos _
  | fn f y => exact (Nat.succ_pos _).trans_le (weight_le_baseWeight (fn f y))
  | pi | e | i | infinity | var => exact Nat.zero_lt_one

theorem Settled.factors_pos (h : Settled (mul fs)) : ∀ f ∈ fs, 0 < baseWeight f := by
  obtain ⟨hfs, hregular⟩ := regular_mul.1 (h.regular (by simp))
  intro f hf
  have hfu : f ≠ .undefined := by
    rintro rfl
    exact hregular _ hf
  refine (h.factors f hf).factorWeight_pos hfu ?_ (hfs.notProduct f hf)
  rcases hfs.cases hregular with hrow | ⟨c, gs, rfl, -, hc, -, hrow, -⟩
  · exact isOne_of_rat?_eq_none (hrow.notRat f hf)
  · rcases List.mem_cons.1 hf with rfl | hf
    · simpa [isOne] using hc
    · exact isOne_of_rat?_eq_none (hrow.notRat f hf)

/-- The other factors of a product have some weight, too. -/
theorem Settled.factor_lt (h : Settled (mul fs)) {f : Expr} (hf : f ∈ fs) :
    baseWeight f < (fs.map baseWeight).sum := by
  have hlen := (regular_mul.1 (h.regular (by simp))).1.twoFactors
  have hothers : 0 < ((fs.erase f).map baseWeight).sum := by
    refine List.sum_pos _ (fun w hw => ?_) ?_
    · obtain ⟨g, hg, rfl⟩ := List.mem_map.1 hw
      exact h.factors_pos g (List.mem_of_mem_erase hg)
    · have hlength := List.length_erase_of_mem hf
      rw [Ne, List.map_eq_nil_iff, ← List.length_eq_zero_iff]
      omega
  rw [← List.sum_map_erase baseWeight hf]
  omega

/-- Other than one, a base has some weight. -/
theorem Settled.baseWeight_pos (h : Settled b) (hu : b ≠ .undefined) (h1 : b.isOne = false) : 0 < baseWeight b := by
  cases b with
  | mul fs =>
    obtain ⟨f, hf⟩ : ∃ f, f ∈ fs :=
      List.exists_mem_of_length_pos (two_pos.trans_le (regular_mul.1 (h.regular hu)).1.twoFactors)
    exact baseWeight_mul fs ▸ (Nat.zero_le _).trans_lt (h.factor_lt hf)
  | _ => exact h.factorWeight_pos hu h1 rfl

/-- A factor other than a rational and infinity has some weight. -/
theorem Settled.weight_pos {f : Expr} (h : Settled f) (hu : f ≠ .undefined) (hr : f.rat? = none)
    (hp : f.isProduct = false) (hinf : f ≠ .infinity) : 0 < weight f := by
  cases f with
  | pow b x =>
    have hregular := h.regular hu
    have hb : b ≠ .undefined := by
      rintro rfl
      exact hregular.2.1
    exact Nat.mul_pos (h.base.baseWeight_pos hb hregular.1.2.2) (by omega)
  | rat q => cases hr
  | infinity => exact absurd rfl hinf
  | undefined => exact absurd rfl hu
  | mul fs => cases hp
  | add ts => exact weight_add ts ▸ (standing_add.1 h.standing).1
  | fn g y => exact Nat.succ_pos _
  | pi | e | i | var => exact Nat.zero_lt_one

/-! ## Sums -/

theorem standing_times {c : Rat} : Standing (times c fs) ↔ ∀ f ∈ fs, Standing f := by
  rw [times, factorwise_standing.ofFactors]
  split
  · simp [factorwise_standing.rat]
  · rfl

/-- What stands behind a coefficient has some weight. -/
theorem RegularRest.weight_pos (h : RegularRest x) (hs : Standing x) : 0 < weight x := by
  obtain ⟨fs, hne, hrow, -, hinf, rfl⟩ := h
  have hweight : weight (times 1 fs) = (fs.map weight).sum := by
    rw [times, weight_ofFactors]
    split <;> simp
  -- infinity stands last, and not alone
  obtain ⟨f, hf, hfinf⟩ : ∃ f ∈ fs, f ≠ infinity := by
    by_contra hall
    simp only [not_exists, not_and, not_not] at hall
    have hlast : fs.dropLast = [] := List.eq_nil_iff_forall_not_mem.2 fun f hf =>
      hrow.infinityLast (hall f (List.dropLast_subset _ hf) ▸ hf)
    refine hinf ?_
    rw [← List.dropLast_append_getLast hne, hlast, hall _ (List.getLast_mem hne)]
    rfl
  have hfu : f ≠ undefined := by
    rintro rfl
    exact hrow.regular _ hf
  have hpos := (Settled.of_regular (hrow.regular f hf) (standing_times.1 hs f hf)).weight_pos hfu (hrow.notRat f hf)
    (hrow.notProduct f hf) hfinf
  rw [hweight]
  exact hpos.trans_le (List.single_le_sum (by simp) _ (List.mem_map_of_mem hf))

theorem ofTerms_standing (h : ∀ t ∈ ts, Standing t) (hpos : 2 ≤ ts.length → 0 < (ts.map weight).sum) :
    Standing (ofTerms ts) := by
  match ts with
  | [] => trivial
  | [t] => exact h t (by simp)
  | t :: u :: ts =>
    have hperm : (sortTerms (t :: u :: ts)).Perm (t :: u :: ts) := List.mergeSort_perm _ _
    refine standing_add.2 ⟨?_, fun v hv => h v (hperm.mem_iff.1 hv)⟩
    rw [(hperm.map weight).sum_eq]
    exact hpos (by simp)

/-- Terms with some weight, possibly with one more behind them. -/
theorem ofTerms_concat_standing (h : ∀ t ∈ ts, Standing t ∧ 0 < weight t) (hx : Standing x) :
    Standing (ofTerms (ts ++ [x])) := by
  refine ofTerms_standing (List.forall_mem_append.2 ⟨fun t ht => (h t ht).1, by simpa using hx⟩) fun hlen => ?_
  match ts with
  | [] => simp at hlen
  | t :: ts =>
    have ht := (h t (by simp)).2
    simp only [List.cons_append, List.map_cons, List.sum_cons]
    omega

theorem sum_settled (h : ∀ t ∈ ts, Settled t) : Settled (sum ts) := by
  refine ⟨sum_wellFormed fun t ht => (h t ht).wellFormed, ?_⟩
  have hflat := flattenTerms_all Settled.terms h
  simp only [sum]
  split
  · trivial
  rename_i hany
  have hregular : ∀ t ∈ flattenTerms ts, Regular t := fun t ht =>
    (hflat t ht).1.regular fun heq => hany (List.any_eq_true.2 ⟨t, ht, by simpa using heq⟩)
  have hrests := TermGroups.rests_insertAll (Q := fun r => RegularRest r ∧ Standing r)
    (fun t ht hr hinf => ⟨(hregular t ht).rest (hflat t ht).2 hr hinf, (hflat t ht).1.splitCoeff.standing⟩)
    (g := .empty) (by simp [TermGroups.empty])
  generalize (flattenTerms ts).foldl TermGroups.insert TermGroups.empty = parts at hrests ⊢
  have hkept : ∀ t ∈ keptTerms parts.groups, Standing t ∧ 0 < weight t := by
    intro t ht
    obtain ⟨p, hp, -, rfl⟩ := mem_keptTerms.1 ht
    obtain ⟨hrest, hstanding⟩ := hrests p hp
    exact ⟨factorwise_standing.withCoeff p.2 hstanding, weight_withCoeff p.2 p.1 ▸ hrest.weight_pos hstanding⟩
  have hinf : Standing (if parts.hasPosInfinity then infinity else negInfinity) := by
    split
    · trivial
    · exact factorwise_standing.negInfinity_of_infinity trivial
  rw [keptTerms] at hkept
  split
  · trivial
  · split
    · split
      · exact hinf
      · exact ofTerms_concat_standing hkept hinf
    · split
      · exact ofTerms_concat_standing hkept trivial
      · refine ofTerms_standing (fun t ht => (hkept t ht).1) fun hlen => ?_
        generalize (List.map _ (List.filter _ parts.groups)) = us at hkept hlen ⊢
        cases us with
        | nil => simp at hlen
        | cons u us =>
          have hu := (hkept u (by simp)).2
          rw [List.map_cons, List.sum_cons]
          omega

/-! ## Roots -/

/-- A root stands that is no rational and from which nothing is taken out. -/
theorem stands_root {n : Nat} {r : Rat} (hn : 1 < n) (hr0 : 0 < r) (hr1 : r < 1) (hindex : r.den ≤ maxRootIndex)
    (hroot : exactRoot? r.den n = none)
    (hfree : r.num.natAbs = 1 → extractPower r.den n = ((1 : Int), (n : Int))) : Stands (rat n) (rat r) := by
  intro power product
  have hn0 : (n : Rat) ≠ 0 := by exact_mod_cast (by omega : n ≠ 0)
  have hn1 : (n : Rat) ≠ 1 := by exact_mod_cast hn.ne'
  have hpos : ¬ (n : Rat) < 0 := by exact_mod_cast Nat.not_lt_zero n
  have hden : r.den ≠ 1 := by
    intro hden
    have hwhole := Rat.floor_intCast r.num
    rw [Rat.coe_int_num_of_den_eq_one hden, floor_eq_zero hr0 hr1] at hwhole
    exact (Rat.num_pos.2 hr0).ne hwhole
  have hproper : Proper (rat n) (rat r) :=
    ⟨by simp, by simpa [isZero] using hr0.ne', by simpa [isOne] using hr1.ne, by simpa [isOne] using hn1⟩
  have hself := radical_self hn.ne' hroot hfree
  rw [mkRat_self hr0.le] at hself
  rw [hproper.step_rational, rationalPower, if_neg hn0, if_neg hden, if_neg (not_lt.2 hindex), if_neg hpos,
    positiveRoot_self hr0 hr1 hself]

/-- A proper fraction in lowest terms is the exponent that it is read as. -/
theorem mkRat_parts {p q : Nat} (hq : 0 < q) (hcoprime : p.Coprime q) :
    (mkRat p q).num.natAbs = p ∧ (mkRat p q).den = q := by
  have hgcd : Nat.gcd q p = 1 := hcoprime.symm
  rw [Rat.num_mkRat, Rat.den_mkRat, if_neg hq.ne', if_neg hq.ne', Int.natAbs_natCast, hgcd]
  simp

/-- What is left of a natural without a root has none. -/
theorem exactRoot?_rest {q n s t : Nat} (hq : 0 < q) (h : exactRoot? q n = none) (hspec : s ^ q * t = n) :
    exactRoot? q t = none := by
  cases hroot : exactRoot? q t with
  | none => rfl
  | some r =>
    have hpow : r ^ q = t := by exact_mod_cast exactRoot?_pow hroot
    rw [← hspec, ← hpow, ← mul_pow, exactRoot?_of_pow hq] at h
    cases h

/-- The roots that a natural to a proper fraction leaves. -/
theorem radical_standing {n p q : Nat} (hn : 0 < n) (hp : 0 < p) (hpq : p < q) (hcoprime : p.Coprime q)
    (hindex : q ≤ maxRootIndex) : ∀ f ∈ (radical n p q).2, Standing f := by
  have hq : 0 < q := hp.trans hpq
  obtain ⟨hnum, hden⟩ := mkRat_parts hq hcoprime
  have hroot {k : Nat} (hk : 1 < k) (hexact : exactRoot? q k = none)
      (hfree : p = 1 → extractPower q k = ((1 : Int), (k : Int))) : Standing (pow (rat k) (rat (mkRat p q))) := by
    have hproper := Root.proper_mkRat hk hp hpq
    refine ⟨stands_root hk hproper.pos hproper.lt_one ?_ ?_ ?_, trivial, trivial⟩
    · rwa [hden]
    · rwa [hden]
    · rwa [hnum, hden]
  unfold radical
  split
  · simp
  rename_i h1
  have hn1 : 1 < n := by omega
  cases hexact : exactRoot? q n with
  | some s => simp
  | none =>
    dsimp only
    split
    · -- the perfect part is taken out, and nothing more can be taken out of what is left
      rename_i hp1
      obtain ⟨-, hpos, hspec⟩ := extractFrom_parts hq.ne' hn
      have hfree := extractPower_of_powerFree (by omega) hpos (extractFrom_powerFree hq.ne' le_rfl hn)
      rw [extractPower_natCast (by omega) hn]
      generalize (extractFrom q 2 1 n).1 = s at hspec
      generalize (extractFrom q 2 1 n).2 = t at hpos hspec hfree
      have hrest := exactRoot?_rest hq hexact hspec
      have ht : t ≠ 1 := by
        rintro rfl
        rw [← hspec, mul_one, exactRoot?_of_pow hq] at hexact
        cases hexact
      simpa using hroot (by omega : 1 < t) hrest fun _ => hfree
    · rename_i hp1
      simpa using hroot hn1 hexact fun h => absurd h hp1

/-- The root of a positive rational within the limits. -/
theorem positiveRoot_standing {p q : Rat} (hp : 0 < p) (hq : q.den ≠ 1) (hindex : q.den ≤ maxRootIndex)
    (hfits : powerFits p q.floor = true) : Standing (positiveRoot p q) := by
  obtain ⟨hn, hnq, -⟩ := exponent_split hq
  have hden : (q - q.floor).den = q.den := Rat.sub_intCast_den q q.floor
  have hcoprime : (q - q.floor).num.natAbs.Coprime q.den := hden ▸ (q - q.floor).reduced
  have hnum : 0 < p.num.natAbs := Int.natAbs_pos.2 (Rat.num_ne_zero.2 hp.ne')
  have htop := radical_standing hnum hn hnq hcoprime hindex
  have hbottom := radical_standing p.den_pos (Nat.sub_pos_of_lt hnq) (Nat.sub_lt q.den_pos hn)
    ((Nat.coprime_self_sub_left hnq.le).2 hcoprime) hindex
  have hform := positiveRoot_eq_times hfits
  dsimp only at hform
  rw [hform, standing_times]
  intro f hf
  rcases List.mem_append.1 ((List.mergeSort_perm _ _).mem_iff.1 hf) with hf | hf
  · exact htop f hf
  · exact hbottom f hf

end SymbolicSolver.Expr
