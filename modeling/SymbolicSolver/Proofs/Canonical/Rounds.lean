import SymbolicSolver.Proofs.Canonical.Standing

/-!
# The rounds suffice

A product that puts powers of one base together is lighter than its factors, and so is a power than what it stands for
once it has called another; only a product that is started anew, or spread over a lone sum, may be as heavy as before,
and it does neither a second time. Hence four rounds for each unit of weight are enough: what comes out is settled, and
further rounds change nothing. The weight of a tree is less than four to the power of its size, and so many rounds are
given. Products and powers of settled operands therefore satisfy the equations in which they call each other, and the
number of rounds does not show.

A product may be given powers that are still to be evaluated, by the power of a product from which the coefficient is
taken out and by the square root of a negative rational.
-/

namespace SymbolicSolver.Expr

variable {b x f : Expr} {ts fs : List Expr} {m n : Nat}

/-! ## Enough rounds -/

/-- A power that the product evaluates, and for which the rounds are enough. -/
def Pending (n : Nat) (f : Expr) : Prop :=
  ∃ b x, f = pow b x ∧ Settled b ∧ Settled x ∧ 4 * powerWeight b x + 4 ≤ n

/-- The rounds are enough for the product of the factors. One round less will do if all factors are settled and the
coefficient is not spread over a lone sum. -/
inductive Enough (n : Nat) (fs : List Expr) : Prop
  | pending (h : ∀ f ∈ fs, Settled f ∨ Pending n f) (hn : 4 * (fs.map weight).sum + 2 ≤ n)
  | settled (h : ∀ f ∈ fs, Settled f) (hn : 4 * (fs.map weight).sum + 1 ≤ n)
      (hlone : ∀ ts, nonRats (flattenFactors fs) ≠ [add ts])

/-- Products and powers are standing if the rounds are enough. -/
structure Suffices (n : Nat) : Prop where
  product : ∀ {fs}, Enough n fs → Standing (productWithin n fs)
  power : ∀ {b x}, Settled b → Settled x → 4 * powerWeight b x + 3 ≤ n → Standing (powerWithin n b x)

/-- A power and a product that are those of so many rounds where these are enough. -/
structure Agrees (n : Nat) (power : Expr → Expr → Expr) (product : List Expr → Expr) : Prop where
  product_eq : ∀ {fs}, Enough n fs → product fs = productWithin n fs
  power_eq : ∀ {b x}, Settled b → Settled x → 4 * powerWeight b x + 3 ≤ n → power b x = powerWithin n b x
  factor_eq : ∀ {f}, Settled f → f ≠ undefined → n ≠ 0 → power (asBase f).1 (asBase f).2 = f

namespace Enough

theorem operands (h : Enough n fs) : ∀ f ∈ fs, Settled f ∨ Pending n f := by
  cases h with
  | pending h hn => exact h
  | settled h hn hlone => exact fun f hf => .inl (h f hf)

theorem weight_lt (h : Enough n fs) : 4 * (fs.map weight).sum + 1 ≤ n := by
  cases h with
  | pending h hn => omega
  | settled h hn hlone => exact hn

theorem flat (h : Enough n fs) : ∀ f ∈ flattenFactors fs, (Settled f ∨ Pending n f) ∧ f.isProduct = false := by
  refine flattenFactors_all (fun {ys} hy g hg => ?_) h.operands
  rcases hy with hy | ⟨b, x, heq, -⟩
  · exact .inl (hy.factors g hg)
  · cases heq

end Enough

/-! ## Factors and their bases -/

theorem powerStep_exponent_one (power : Expr → Expr → Expr) (product : List Expr → Expr) (hb : b ≠ undefined) :
    powerStep power product b (rat 1) = b := by
  rw [powerStep_eq_plainPower _ _ (.inr (.inl (by simp [isOne]))), plainPower, if_neg (by simpa using hb),
    if_neg (by simp [isZero]), if_pos (by simp [isOne])]

/-- A settled factor is the power that it is collected as. -/
theorem Settled.powerStep_asBase (h : Settled f) (hu : f ≠ .undefined) (power : Expr → Expr → Expr)
    (product : List Expr → Expr) : powerStep power product (asBase f).1 (asBase f).2 = f := by
  cases f with
  | pow b x => exact h.standing.1 _ _
  | undefined => exact absurd rfl hu
  | rat | pi | e | i | infinity | var | add | mul | fn => exact powerStep_exponent_one _ _ hu

theorem Settled.power_asBase (h : Settled f) (hu : f ≠ .undefined) (hm : m ≠ 0) :
    powerWithin m (asBase f).1 (asBase f).2 = f := by
  obtain ⟨k, rfl⟩ := Nat.exists_eq_succ_of_ne_zero hm
  exact h.powerStep_asBase hu _ _

theorem Settled.asBase (h : Settled f) : Settled (asBase f).1 ∧ Settled (asBase f).2 := by
  cases f with
  | pow b x => exact ⟨h.base, h.exponent⟩
  | rat | pi | e | i | infinity | undefined | var | add | mul | fn => exact ⟨h, .rat 1⟩

theorem Settled.asBase_pos (h : Settled f) (hu : f ≠ .undefined) (hr : f.rat? = none) (hp : f.isProduct = false) :
    0 < baseWeight (Expr.asBase f).1 := by
  cases f with
  | pow b x =>
    have hregular := h.regular hu
    have hb : b ≠ .undefined := by
      rintro rfl
      exact hregular.2.1
    exact h.base.baseWeight_pos hb hregular.1.2.2
  | rat | pi | e | i | infinity | undefined | var | add | mul | fn =>
    exact h.factorWeight_pos hu (isOne_of_rat?_eq_none hr) hp

/-- Settled factors that a product has collected, and that it rebuilds as they are. -/
theorem map_power_asBase {gs : List Expr} (h : ∀ f ∈ gs, Settled f ∧ f ≠ undefined) (hm : gs ≠ [] → m ≠ 0) :
    (gs.map asBase).map (fun g => powerWithin m g.1 g.2) = gs := by
  rw [List.map_map]
  refine (List.map_congr_left fun f hf => ?_).trans (List.map_id _)
  exact (h f hf).1.power_asBase (h f hf).2 (hm (List.ne_nil_of_mem hf))

/-! ## Collected bases -/

/-- The powers that a product has collected: a power is a factor as it was, or there are enough rounds to rebuild it. -/
theorem Enough.collected (h : Enough (m + 1) fs) (hu : ∀ f ∈ flattenFactors fs, f ≠ undefined) :
    ∀ g ∈ (collectBases (flattenFactors fs)).others, (Settled g.1 ∧ Settled g.2) ∧
      ((∃ f, Settled f ∧ f ≠ undefined ∧ m ≠ 0 ∧ g = asBase f) ∨ 4 * powerWeight g.1 g.2 + 3 ≤ m) := by
  have hflat := h.flat
  have hweight := h.weight_lt
  have hgathered := gathered_collectBases fun f hf => (hflat f hf).2
  intro g hg
  refine ⟨?_, ?_⟩
  · refine collectBases_all (P := fun b x => Settled b ∧ Settled x)
      (fun hx hy => ⟨hx.1, sum_settled (by simpa using ⟨hx.2, hy.2⟩)⟩) (fun f hf _ _ => ?_) g hg
    rcases (hflat f hf).1 with hsettled | ⟨b, x, rfl, hb, hx, -⟩
    · exact hsettled.asBase
    · exact ⟨hb, hx⟩
  · -- the base is that of some factor, and where it is heavy there is weight saved, or it was given more rounds
    obtain ⟨f, hf, hbase, hcase⟩ := hgathered.base g hg
    obtain ⟨hf, hr, hinf⟩ := mem_plainFactors.1 hf
    have hle : powerWeight g.1 g.2 ≤ groupsWeight (collectBases (flattenFactors fs)).others :=
      List.single_le_sum (by simp) _ (List.mem_map_of_mem hg)
    rw [weight_plainFactors, weight_flattenFactors] at hcase
    rcases (hflat f hf).1 with hsettled | ⟨b, x, rfl, -, -, hpending⟩
    · have hpos := hsettled.asBase_pos (hu f hf) hr (hflat f hf).2
      rcases hcase with rfl | hsaved
      · have hfpos := hsettled.weight_pos (hu f hf) hr (hflat f hf).2 hinf
        have hsum : weight f ≤ ((flattenFactors fs).map weight).sum :=
          List.single_le_sum (by simp) _ (List.mem_map_of_mem hf)
        rw [weight_flattenFactors] at hsum
        exact .inl ⟨f, hsettled, hu f hf, by omega, rfl⟩
      · rw [hbase] at hpos
        exact .inr (by omega)
    · right
      rcases hcase with rfl | hsaved
      · change 4 * powerWeight b x + 3 ≤ m
        omega
      · rcases Nat.eq_zero_or_pos (baseWeight g.1) with hzero | hpos
        · have hnone : powerWeight g.1 g.2 = 0 := by rw [powerWeight, hzero, Nat.zero_mul]
          omega
        · omega

/-- What a product of settled factors rebuilds where no base was collected twice: its factors, as they were. -/
theorem Enough.others_eq (h : Enough (m + 1) fs) (hsettled : ∀ f ∈ fs, Settled f)
    (hu : ∀ f ∈ flattenFactors fs, f ≠ undefined)
    (hsingle : (collectBases (flattenFactors fs)).others = (plainFactors (flattenFactors fs)).map asBase) :
    plainFactors ((collectBases (flattenFactors fs)).others.map fun g => powerWithin m g.1 g.2) =
      plainFactors (flattenFactors fs) := by
  have hkept : ∀ f ∈ plainFactors (flattenFactors fs), (Settled f ∧ f ≠ undefined) ∧ f.rat? = none ∧ f ≠ infinity :=
    fun f hf =>
      have hmem := (mem_plainFactors.1 hf).1
      ⟨⟨(flattenFactors_all Settled.factors hsettled f hmem).1, hu f hmem⟩, (mem_plainFactors.1 hf).2⟩
  -- a factor has a weight, and so there is a round for it
  have hround : plainFactors (flattenFactors fs) ≠ [] → m ≠ 0 := by
    intro hne
    obtain ⟨f, hf⟩ := List.exists_mem_of_ne_nil _ hne
    obtain ⟨⟨hfs, hfu⟩, hr, hinf⟩ := hkept f hf
    have hmem := (mem_plainFactors.1 hf).1
    have hpos := hfs.weight_pos hfu hr (h.flat f hmem).2 hinf
    have hsum : weight f ≤ ((flattenFactors fs).map weight).sum :=
      List.single_le_sum (by simp) _ (List.mem_map_of_mem hmem)
    have hweight := h.weight_lt
    rw [weight_flattenFactors] at hsum
    omega
  rw [hsingle, map_power_asBase (fun f hf => (hkept f hf).1) hround]
  exact List.filter_eq_self.2 fun f hf => by simpa using (hkept f hf).2

/-- If the rounds are just enough, a further product is of lighter factors. -/
theorem Enough.others_lt (h : Enough (m + 1) fs) (hu : ∀ f ∈ flattenFactors fs, f ≠ undefined) {parts : FactorGroups Expr}
    (hparts : parts = collectRebuilt (collectBases (flattenFactors fs)).coeff (collectBases (flattenFactors fs)).hasInfinity
      ((collectBases (flattenFactors fs)).others.map fun g => powerWithin m g.1 g.2))
    (hagain : parts.others.any isProduct = true ∨ parts.hasInfinity = false ∧ ∃ ts, parts.others = [add ts]) :
    4 * (parts.others.map weight).sum + 1 ≤ m := by
  have hflat := h.flat
  have hgathered := gathered_collectBases fun f hf => (hflat f hf).2
  have hothers : parts.others =
      plainFactors ((collectBases (flattenFactors fs)).others.map fun g => powerWithin m g.1 g.2) := by
    rw [hparts, collectRebuilt_parts]
  have hweight : (parts.others.map weight).sum ≤ groupsWeight (collectBases (flattenFactors fs)).others := by
    rw [hothers, weight_plainFactors, List.map_map]
    exact List.sum_le_sum fun g _ => (within_weight m).2 g.1 g.2
  have hle := hgathered.weight_le
  rw [weight_plainFactors, weight_flattenFactors] at hle
  cases h with
  | pending h hn => omega
  | settled h hn hlone =>
    rcases hgathered.all_single_or_saved with hsingle | ⟨f, hf, hsaved⟩
    · -- every factor is as it was, so there is neither a product among them nor a lone sum
      rw [(Enough.settled h hn hlone).others_eq h hu hsingle] at hothers
      rcases hagain with hany | ⟨hinf, ts, hts⟩
      · obtain ⟨f, hf, hp⟩ := List.any_eq_true.1 hany
        rw [hothers] at hf
        exact absurd hp (by simp [(hflat f (mem_plainFactors.1 hf).1).2])
      · have hnone : infinity ∉ flattenFactors fs := by
          rw [hparts, collectRebuilt_parts, collectBases_parts] at hinf
          simpa using (Bool.or_eq_false_iff.1 hinf).1
        exact absurd (hothers.symm.trans hts) (nonRats_eq_plainFactors hnone ▸ hlone ts)
    · obtain ⟨hmem, hr, -⟩ := mem_plainFactors.1 hf
      have hfs := (flattenFactors_all Settled.factors h f hmem).1
      have hpos := hfs.asBase_pos (hu f hmem) hr (hflat f hmem).2
      rw [weight_plainFactors, weight_flattenFactors] at hsaved
      omega

/-! ## Multiplying out -/

/-- The further products that multiplying out may call for have the property. -/
structure Further (P : List Expr → Prop) (parts : FactorGroups Expr) : Prop where
  restart : parts.coeff ≠ 0 → parts.others.any isProduct = true →
    P (parts.others ++ rat parts.coeff :: if parts.hasInfinity then [infinity] else [])
  spread : ∀ ts, parts.coeff ≠ 0 → parts.hasInfinity = false → parts.others = [add ts] → ∀ t ∈ ts, P [rat parts.coeff, t]

theorem Further.imp {P Q : List Expr → Prop} {parts : FactorGroups Expr} (h : Further P parts) (hPQ : ∀ fs, P fs → Q fs) :
    Further Q parts :=
  ⟨fun hc hany => hPQ _ (h.restart hc hany), fun ts hc hinf hts t ht => hPQ _ (h.spread ts hc hinf hts t ht)⟩

theorem multiplyOut_standing {product : List Expr → Expr} {parts : FactorGroups Expr}
    (hothers : ∀ f ∈ parts.others, Standing f) (h : Further (fun fs => Settled (product fs)) parts) :
    Standing (multiplyOut product parts) := by
  unfold multiplyOut
  split
  · split <;> trivial
  rename_i hc
  split
  · exact (h.restart hc ‹_›).standing
  split
  · exact factorwise_standing.infiniteProduct _ trivial hothers
  rename_i hinf
  split
  · rename_i ts hts
    split
    · exact hothers _ (by simp [hts])
    · refine (sum_settled fun t ht => ?_).standing
      obtain ⟨u, hu, rfl⟩ := List.mem_map.1 ht
      exact h.spread ts hc (by simpa using hinf) hts u hu
  · exact factorwise_standing.assemble _ Bool.noConfusion hothers

theorem multiplyOut_congr {product product' : List Expr → Expr} {parts : FactorGroups Expr}
    (h : Further (fun fs => product fs = product' fs) parts) :
    multiplyOut product parts = multiplyOut product' parts := by
  unfold multiplyOut
  split
  · rfl
  rename_i hc
  split
  · exact h.restart hc ‹_›
  split
  · rfl
  rename_i hinf
  split
  · rename_i ts hts
    split
    · rfl
    · exact congrArg sum (List.map_congr_left (h.spread ts hc (by simpa using hinf) hts))
  · rfl

/-! ## The products that a power calls -/

/-- The square root of a negative rational: a power of the unit, and a root that is put together or that the product
evaluates. -/
theorem enough_negativeRoot {p q : ℚ} (hp : p < 0) (hq : q.den = 2) (hn : 4 * powerWeight (rat p) (rat q) + 3 ≤ m + 1) :
    Enough m [iPower q.num, positiveRoot (-p) q] := by
  have hq1 : q.den ≠ 1 := by omega
  have hindex : q.den ≤ maxRootIndex := by rw [hq]; decide
  have hi : Settled (iPower q.num) := .of_regular (regular_iPower _) (factorwise_standing.iPower _)
  have hiweight := weight_iPower q.num
  have hrootweight := weight_positiveRoot (neg_pos.2 hp) q
  rw [powerWeight_rat, baseWeight_rat, unitWeight_neg hp] at hn
  have hroot : Settled (positiveRoot (-p) q) ∨ Pending m (positiveRoot (-p) q) := by
    cases hfits : powerFits (-p) q.floor with
    | true =>
      exact .inl (.of_regular (regular_positiveRoot (neg_pos.2 hp) hq1 hfits)
        (positiveRoot_standing (neg_pos.2 hp) hq1 hindex hfits))
    | false =>
      refine .inr ⟨rat (-p), rat q, by simp [positiveRoot, hfits], .rat _, .rat _, ?_⟩
      rw [powerWeight_rat, baseWeight_rat]
      omega
  refine .pending (by simpa using ⟨.inl hi, hroot⟩) ?_
  simp only [List.map_cons, List.map_nil, List.sum_cons, List.sum_nil, Nat.add_zero]
  omega

/-- The exponents of a power of a power, and the power that they make. -/
theorem enough_nested {y : Expr} (hb : Settled (pow b y)) (hx : Settled x)
    (hn : 4 * powerWeight (pow b y) x + 3 ≤ m + 1) :
    Enough m [y, x] ∧ 4 * powerWeight b (productWithin m [y, x]) + 3 ≤ m := by
  have hpos : 0 < baseWeight b := hb.asBase_pos (by simp) rfl rfl
  have hge := powerWeight_pow_ge hpos y x
  have hnested := powerWeight_nested (within_weight m).1 b y x
  have hyx : ∀ f ∈ [y, x], Settled f := by simpa using ⟨hb.exponent, hx⟩
  refine ⟨.pending (fun f hf => .inl (hyx f hf)) ?_, by omega⟩
  simp only [List.map_cons, List.map_nil, List.sum_cons, List.sum_nil, Nat.add_zero]
  omega

/-- A factor of a product is lighter than the product, and so are the powers of all factors together. -/
theorem enough_spread {q : ℚ} (hb : Settled (mul fs)) (hn : 4 * powerWeight (mul fs) (rat q) + 3 ≤ m + 1) :
    (∀ f ∈ fs, 4 * powerWeight f (rat q) + 3 ≤ m) ∧ 4 * ((fs.map fun f => powerWithin m f (rat q)).map weight).sum + 2 ≤ m := by
  rw [powerWeight_rat, baseWeight_mul] at hn
  have hweight : ((fs.map fun f => powerWithin m f (rat q)).map weight).sum ≤ (fs.map baseWeight).sum := by
    rw [List.map_map]
    exact List.sum_le_sum fun f _ => by simpa using (within_weight m).2 f (rat q)
  refine ⟨fun f hf => ?_, by omega⟩
  have hlt := hb.factor_lt hf
  rw [powerWeight_rat]
  omega

/-- The coefficient of a product and the rest of it are each lighter than the product. -/
theorem enough_scaled {c : ℚ} (hb : Settled (mul (rat c :: fs))) (hn : 4 * powerWeight (mul (rat c :: fs)) x + 3 ≤ m + 1) :
    4 * powerWeight (rat c) x + 3 ≤ m ∧ 4 * powerWeight (ofFactors fs) x + 4 ≤ m ∧
      4 * (weight (powerWithin m (rat c) x) + powerWeight (ofFactors fs) x) + 2 ≤ m := by
  have hlt := hb.factor_lt (List.mem_cons_self (a := rat c))
  have hcpos := hb.factors_pos (rat c) List.mem_cons_self
  rw [List.map_cons, List.sum_cons, ← baseWeight_ofFactors] at hlt
  have hcoeff : 0 < powerWeight (rat c) x := Nat.mul_pos hcpos (by omega)
  have hrest : 0 < powerWeight (ofFactors fs) x := Nat.mul_pos (by omega) (by omega)
  have hcweight := (within_weight m).2 (rat c) x
  rw [powerWeight_scaled] at hn
  omega

/-! ## One round of the product -/

section Round

variable (ih : Suffices m)

include ih

theorem Suffices.settled_power (hb : Settled b) (hx : Settled x) (hn : 4 * powerWeight b x + 3 ≤ m) :
    Settled (powerWithin m b x) :=
  ⟨(within_wellFormed m).2 b x hb.wellFormed hx.wellFormed, ih.power hb hx hn⟩

theorem Suffices.settled_product (h : ∀ f ∈ fs, Settled f) (hn : Enough m fs) : Settled (productWithin m fs) :=
  ⟨(within_wellFormed m).1 fs fun f hf => (h f hf).wellFormed.operand, ih.product hn⟩

/-- What multiplying out has to do with the powers that have been rebuilt. -/
theorem Suffices.rebuilt (h : Enough (m + 1) fs) (hu : ∀ f ∈ flattenFactors fs, f ≠ undefined)
    {parts : FactorGroups Expr}
    (hparts : parts = collectRebuilt (collectBases (flattenFactors fs)).coeff (collectBases (flattenFactors fs)).hasInfinity
      ((collectBases (flattenFactors fs)).others.map fun g => powerWithin m g.1 g.2))
    (hdef : ∀ f ∈ (collectBases (flattenFactors fs)).others.map (fun g => powerWithin m g.1 g.2), f ≠ undefined) :
    (∀ f ∈ parts.others, Settled f) ∧ Further (fun gs => (∀ f ∈ gs, Settled f) ∧ Enough m gs) parts := by
  have hagain := h.others_lt hu hparts
  have hothers : ∀ f ∈ parts.others, Settled f ∧ Regular f ∧ f.rat? = none := by
    intro f hf
    rw [hparts, collectRebuilt_parts] at hf
    obtain ⟨hf, hr, -⟩ := mem_plainFactors.1 hf
    have hfu := hdef f hf
    obtain ⟨g, hg, rfl⟩ := List.mem_map.1 hf
    have hsettled : Settled (powerWithin m g.1 g.2) := by
      obtain ⟨⟨hb, hx⟩, ⟨f', hf', hu', hm, rfl⟩ | hn⟩ := h.collected hu g hg
      · rwa [hf'.power_asBase hu' hm]
      · exact ih.settled_power hb hx hn
    exact ⟨hsettled, hsettled.regular hfu, hr⟩
  refine ⟨fun f hf => (hothers f hf).1, fun hc hany => ?_, fun ts hc hinf hts t ht => ?_⟩
  · have hlt := hagain (.inl hany)
    have hsettled : ∀ f ∈ parts.others ++ rat parts.coeff :: if parts.hasInfinity then [infinity] else [], Settled f := by
      refine List.forall_mem_append.2 ⟨fun f hf => (hothers f hf).1, List.forall_mem_cons.2 ⟨.rat _, ?_⟩⟩
      cases parts.hasInfinity <;> simp
    refine ⟨hsettled, .settled hsettled ?_ ?_⟩
    · cases parts.hasInfinity <;> simpa using hlt
    · exact (restart_others (fun f hf => (hothers f hf).2.1) (fun f hf => (hothers f hf).2.2) hany hc _).notLone
  · have hadd : Settled (add ts) := (hothers _ (by simp [hts])).1
    have hsettled : ∀ f ∈ [rat parts.coeff, t], Settled f := by simpa using hadd.terms t ht
    have hlt := hagain (.inr ⟨hinf, ts, hts⟩)
    have hle : weight t ≤ (ts.map weight).sum := List.single_le_sum (by simp) _ (List.mem_map_of_mem ht)
    rw [hts, List.map_singleton, List.sum_singleton, weight_add] at hlt
    exact ⟨hsettled, .settled hsettled (by simpa using by omega) (restart_term (hadd.regular (by simp)) ht hc).notLone⟩

/-- The product of one round more is standing, and it is that of any power and product that agree. -/
theorem Suffices.product_step (h : Enough (m + 1) fs) : Standing (productWithin (m + 1) fs) ∧
    ∀ power product, Agrees m power product → productStep power product fs = productWithin (m + 1) fs := by
  rw [productWithin]
  by_cases hany : (flattenFactors fs).any (· = undefined) = true
  · have hstep (power : Expr → Expr → Expr) (product : List Expr → Expr) : productStep power product fs = undefined :=
      if_pos hany
    simp only [hstep]
    exact ⟨trivial, fun _ _ _ => trivial⟩
  have hu : ∀ f ∈ flattenFactors fs, f ≠ undefined := fun f hf heq =>
    hany (List.any_eq_true.2 ⟨f, hf, by simpa using heq⟩)
  have hmap {power : Expr → Expr → Expr} {product : List Expr → Expr} (hagrees : Agrees m power product) :
      (collectBases (flattenFactors fs)).others.map (fun g => power g.1 g.2) =
        (collectBases (flattenFactors fs)).others.map fun g => powerWithin m g.1 g.2 := by
    refine List.map_congr_left fun g hg => ?_
    obtain ⟨⟨hb, hx⟩, ⟨f, hf, hu, hm, rfl⟩ | hn⟩ := h.collected hu g hg
    · rw [hagrees.factor_eq hf hu hm, hf.power_asBase hu hm]
    · exact hagrees.power_eq hb hx hn
  have hstep (power : Expr → Expr → Expr) (product : List Expr → Expr) : productStep power product fs = _ :=
    if_neg hany
  simp only [hstep]
  by_cases hrebuilt :
      ((collectBases (flattenFactors fs)).others.map fun g => powerWithin m g.1 g.2).any (· = undefined) = true
  · rw [if_pos hrebuilt]
    exact ⟨trivial, fun power product hagrees => by rw [hmap hagrees, if_pos hrebuilt]⟩
  obtain ⟨hothers, hfurther⟩ := ih.rebuilt h hu rfl fun f hf heq =>
    hrebuilt (List.any_eq_true.2 ⟨f, hf, by simpa using heq⟩)
  rw [if_neg hrebuilt]
  refine ⟨multiplyOut_standing (fun f hf => (hothers f hf).standing) ?_, fun power product hagrees => ?_⟩
  · exact hfurther.imp fun gs hgs => ih.settled_product hgs.1 hgs.2
  · rw [hmap hagrees, if_neg hrebuilt]
    exact multiplyOut_congr (hfurther.imp fun gs hgs => hagrees.product_eq hgs.2)

/-! ## One round of the power -/

/-- The power of one round more is standing, and it is that of any power and product that agree. -/
theorem Suffices.power_step (hb : Settled b) (hx : Settled x) (hn : 4 * powerWeight b x + 3 ≤ m + 1) :
    Standing (powerWithin (m + 1) b x) ∧
      ∀ power product, Agrees m power product → powerStep power product b x = powerWithin (m + 1) b x := by
  rw [powerWithin]
  cases powerStep_cases b x with
  | undefined h =>
    simp only [h]
    exact ⟨trivial, fun _ _ _ => trivial⟩
  | value l h =>
    simp only [h]
    refine ⟨?_, fun _ _ _ => trivial⟩
    cases l with
    | negInf => exact factorwise_standing.negInfinity_of_infinity trivial
    | _ => trivial
  | stands h => exact ⟨(h _ _).symm ▸ ⟨h, hb.standing, hx.standing⟩, fun _ _ _ => by rw [h, h]⟩
  | one h =>
    simp only [h]
    exact ⟨hb.standing, fun _ _ _ => trivial⟩
  | unit h =>
    simp only [h]
    exact ⟨factorwise_standing.iPower _, fun _ _ _ => trivial⟩
  | root hp hp1 hq hindex hfits h =>
    simp only [h]
    exact ⟨positiveRoot_standing hp hq hindex hfits, fun _ _ _ => trivial⟩
  | negativeRoot hp hq h =>
    have hproduct := enough_negativeRoot hp hq hn
    simp only [h]
    exact ⟨ih.product hproduct, fun _ _ hagrees => hagrees.product_eq hproduct⟩
  | logarithm h =>
    simp only [h]
    exact ⟨hx.arg.standing, fun _ _ _ => trivial⟩
  | @scaledLogarithm c u h =>
    have hu := (hx.factors (fn .log u) (by simp)).arg
    rw [powerWeight_exp, weight_mul] at hn
    simp only [List.map_cons, List.map_nil, List.sum_cons, List.sum_nil, weight_rat, weight_fn] at hn
    have hle : 4 * powerWeight u (rat c) + 3 ≤ m := by
      rw [powerWeight_rat]
      omega
    simp only [h]
    exact ⟨ih.power hu (.rat c) hle, fun _ _ hagrees => hagrees.power_eq hu (.rat c) hle⟩
  | @nested b y x h =>
    obtain ⟨hproduct, hle⟩ := enough_nested hb hx hn
    have hexponent := ih.settled_product (by simpa using ⟨hb.exponent, hx⟩) hproduct
    simp only [h]
    refine ⟨ih.power hb.base hexponent hle, fun power product hagrees => ?_⟩
    rw [hagrees.product_eq hproduct]
    exact hagrees.power_eq hb.base hexponent hle
  | @spread fs q hq h =>
    obtain ⟨hle, hweight⟩ := enough_spread hb hn
    have hproduct : Enough m (fs.map fun f => powerWithin m f (rat q)) := by
      refine .pending (fun f hf => ?_) hweight
      obtain ⟨g, hg, rfl⟩ := List.mem_map.1 hf
      exact .inl (ih.settled_power (hb.factors g hg) hx (hle g hg))
    simp only [h]
    refine ⟨ih.product hproduct, fun power product hagrees => ?_⟩
    rw [List.map_congr_left fun f hf => hagrees.power_eq (hb.factors f hf) hx (hle f hf)]
    exact hagrees.product_eq hproduct
  | @scaled c fs x hc h =>
    obtain ⟨hle, hrest, hweight⟩ := enough_scaled hb hn
    have hproduct : Enough m [powerWithin m (rat c) x, pow (ofFactors fs) x] := by
      have hcoeff := ih.settled_power (.rat c) hx hle
      have hpending : Pending m (pow (ofFactors fs) x) := ⟨_, _, rfl, hb.splitCoeff, hx, hrest⟩
      exact .pending (by simpa using ⟨.inl hcoeff, .inr hpending⟩) (by simpa [weight_pow] using hweight)
    simp only [h]
    refine ⟨ih.product hproduct, fun power product hagrees => ?_⟩
    rw [hagrees.power_eq (.rat c) hx hle]
    exact hagrees.product_eq hproduct

end Round

/-! ## All rounds -/

theorem suffices_within (n : Nat) : Suffices n := by
  induction n with
  | zero =>
    refine ⟨fun h => ?_, fun _ _ hn => ?_⟩
    · have hlt := h.weight_lt
      omega
    · omega
  | succ n ih => exact ⟨fun h => (ih.product_step h).1, fun hb hx hn => (ih.power_step hb hx hn).1⟩

/-- Further rounds change nothing. -/
theorem agrees_within (h : n ≤ m) : Agrees n (powerWithin m) (productWithin m) := by
  have hfactor {f : Expr} (hf : Settled f) (hu : f ≠ undefined) (hn : n ≠ 0) :
      powerWithin m (asBase f).1 (asBase f).2 = f := hf.power_asBase hu (by omega)
  induction n generalizing m with
  | zero =>
    refine ⟨fun h => ?_, fun _ _ hn => ?_, fun _ _ hn => absurd rfl hn⟩
    · have hlt := h.weight_lt
      omega
    · omega
  | succ n ih =>
    obtain ⟨m, rfl⟩ := Nat.exists_eq_succ_of_ne_zero (by omega : m ≠ 0)
    have hagrees := ih (m := m) (by omega) fun hf hu hn => hf.power_asBase hu (by omega)
    exact ⟨fun hfs => ((suffices_within n).product_step hfs).2 _ _ hagrees,
      fun hb hx hle => ((suffices_within n).power_step hb hx hle).2 _ _ hagrees, hfactor⟩

theorem roundsFor_eq_pow (size : Nat) : roundsFor size = 16 * 4 ^ size + 4 := by
  rw [roundsFor, Nat.one_shiftLeft, pow_add, pow_mul, mul_comm]
  norm_num

theorem enough_rounds (h : ∀ f ∈ fs, Settled f ∨ Pending n f) : Enough (roundsFor (sizeAll fs)) fs := by
  have hweight : (fs.map weight).sum < 4 ^ sizeAll fs :=
    (List.sum_le_sum fun f _ => weight_le_baseWeight f).trans_lt (weightAll_lt fs)
  have hrounds := roundsFor_eq_pow (sizeAll fs)
  refine .pending (fun f hf => (h f hf).imp_right ?_) (by omega)
  rintro ⟨b, x, rfl, hb, hx, -⟩
  have hle : powerWeight b x ≤ (fs.map weight).sum := List.single_le_sum (by simp) _ (List.mem_map_of_mem hf)
  exact ⟨b, x, rfl, hb, hx, by omega⟩

theorem power_rounds (b x : Expr) : 4 * powerWeight b x + 3 ≤ roundsFor (b.size + x.size) := by
  have hexponent : 1 + weight x ≤ 4 ^ x.size := by
    have hle := weight_le_baseWeight x
    have hlt := baseWeight_lt x
    omega
  have hweight : powerWeight b x ≤ 4 ^ b.size * 4 ^ x.size := Nat.mul_le_mul (baseWeight_lt b).le hexponent
  rw [roundsFor_eq_pow, pow_add]
  omega

theorem agrees (n : Nat) : Agrees n power product where
  product_eq {fs} h := by
    rcases Nat.le_total n (roundsFor (sizeAll fs)) with hle | hle
    · exact (agrees_within hle).product_eq h
    · exact ((agrees_within hle).product_eq (enough_rounds h.operands)).symm
  power_eq {b x} hb hx hn := by
    rcases Nat.le_total n (roundsFor (b.size + x.size)) with hle | hle
    · exact (agrees_within hle).power_eq hb hx hn
    · exact ((agrees_within hle).power_eq hb hx (power_rounds b x)).symm
  factor_eq {f} hf hu _ := by
    obtain ⟨k, hk⟩ := roundsFor_eq ((asBase f).1.size + (asBase f).2.size)
    rw [power, hk]
    exact hf.power_asBase hu (by omega)

/-! ## The canonical operations -/

/-- The product of settled factors is settled. -/
theorem product_settled (h : ∀ f ∈ fs, Settled f) : Settled (product fs) :=
  (suffices_within _).settled_product h (enough_rounds (n := 0) fun f hf => .inl (h f hf))

/-- The power of settled operands is settled. -/
theorem power_settled (hb : Settled b) (hx : Settled x) : Settled (power b x) :=
  (suffices_within _).settled_power hb hx (power_rounds b x)

/-- A product calls the canonical product and power. -/
theorem product_eq_productStep (h : ∀ f ∈ fs, Settled f) : product fs = productStep power product fs := by
  obtain ⟨k, hk⟩ := roundsFor_eq (sizeAll fs)
  have henough := enough_rounds (n := 0) fun f hf => .inl (h f hf)
  rw [hk] at henough
  rw [((suffices_within (k + 3)).product_step henough).2 _ _ (agrees _), ← hk, product]

/-- A power calls the canonical product and power. -/
theorem power_eq_powerStep (hb : Settled b) (hx : Settled x) : power b x = powerStep power product b x := by
  obtain ⟨k, hk⟩ := roundsFor_eq (b.size + x.size)
  have hrounds := power_rounds b x
  rw [hk] at hrounds
  rw [((suffices_within (k + 3)).power_step hb hx hrounds).2 _ _ (agrees _), ← hk, power]

/-- Settled trees are closed under the canonical operations. -/
theorem invariant_settled : Invariant Settled where
  rat := .rat
  pi := .of_regular trivial trivial
  e := .of_regular trivial trivial
  i := .of_regular trivial trivial
  infinity := .infinity
  negInfinity := .of_regular regular_negInfinity (factorwise_standing.negInfinity_of_infinity trivial)
  undefined := .undefined
  sum := sum_settled
  product := product_settled
  power := power_settled
  add := Settled.terms
  mul := Settled.factors
  pow h := ⟨h.base, h.exponent⟩
  arg := Settled.arg
  splitCoeff := Settled.splitCoeff

end SymbolicSolver.Expr
