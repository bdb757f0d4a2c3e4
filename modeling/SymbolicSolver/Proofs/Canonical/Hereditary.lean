import SymbolicSolver.Proofs.Canonical.Tidy

/-!
# What canonical trees inherit

A property of trees is compositional if it holds of a tree just when it holds of its parts, and of rationals, the
imaginary unit and the undefined value, which sums, products and powers may bring in by themselves. What is
compositional and holds of the operands holds of the canonical sum, product and power as well, whatever the number of
rounds; infinity is brought in only where an operand has it. That only certain variables occur is such a property, so no
variable is brought in, and that infinity does not occur is another one. A property that infinity has, too, is
hereditary.
-/

namespace SymbolicSolver.Expr

/-- A property that a product has just when its factors have it. -/
structure Factorwise (P : Expr → Prop) : Prop where
  rat : ∀ q, P (rat q)
  i : P i
  undefined : P undefined
  mul : ∀ fs, P (mul fs) ↔ ∀ f ∈ fs, P f

/-- A property that the parts of a tree have just when the tree has it. -/
structure Compositional (P : Expr → Prop) : Prop extends Factorwise P where
  add : ∀ ts, P (add ts) ↔ ∀ t ∈ ts, P t
  pow : ∀ b x, P (pow b x) ↔ P b ∧ P x
  arg : ∀ f x, P (fn f x) → P x

/-- A compositional property of infinity. -/
structure Hereditary (P : Expr → Prop) : Prop extends Compositional P where
  infinity : P infinity

/-! ## Products of factors -/

namespace Factorwise

variable {P : Expr → Prop} (hP : Factorwise P)

include hP

theorem negInfinity_of_infinity (hinf : P infinity) : P negInfinity :=
  (hP.mul _).2 (by simp [hP.rat, hinf])

/-- What is infinite has infinity as a part. -/
theorem infinity_of_sign {t : Expr} (h : P t) {s : Int} (hs : t.infinitySign? = some s) : P infinity := by
  unfold infinitySign? at hs
  split at hs
  · exact h
  · exact (hP.mul _).1 h _ (List.mem_cons_of_mem _ (List.mem_singleton_self _))
  · cases hs

theorem ofFactors {fs : List Expr} : P (ofFactors fs) ↔ ∀ f ∈ fs, P f := by
  unfold Expr.ofFactors
  split
  · simp
  · exact hP.mul _

theorem splitCoeff {t : Expr} (h : P t) : P t.splitCoeff.2 := by
  unfold Expr.splitCoeff
  split
  · exact hP.rat 1
  · rw [hP.mul, List.forall_mem_cons] at h
    exact hP.ofFactors.2 h.2
  · exact h

theorem withCoeff (c : Rat) {x : Expr} (h : P x) : P (withCoeff c x) := by
  unfold Expr.withCoeff
  split
  · exact hP.rat c
  · split
    · exact h
    · split
      · rw [hP.mul] at h
        exact (hP.mul _).2 (List.forall_mem_cons.2 ⟨hP.rat c, h⟩)
      · exact (hP.mul _).2 (by simp [hP.rat, h])

theorem flattenFactors {fs : List Expr} (h : ∀ f ∈ fs, P f) : ∀ f ∈ flattenFactors fs, P f :=
  fun f hf => (flattenFactors_all (hP.mul _).1 h f hf).1

theorem assemble (c : Rat) {fs : List Expr} {inf : Bool} (hinf : inf = true → P Expr.infinity) (h : ∀ f ∈ fs, P f) :
    P (assemble c fs inf) := by
  have hperm : (sortFactors fs).Perm fs := List.mergeSort_perm fs _
  have hall : ∀ f ∈ sortFactors fs ++ (if inf then [Expr.infinity] else []), P f := by
    intro f hf
    rcases List.mem_append.1 hf with hf | hf
    · exact h f (hperm.mem_iff.1 hf)
    · cases inf with
      | false => simp at hf
      | true => exact List.mem_singleton.1 hf ▸ hinf rfl
  simp only [Expr.assemble]
  generalize sortFactors fs ++ (if inf then [Expr.infinity] else []) = gs at hall ⊢
  rw [hP.ofFactors]
  split
  · exact List.forall_mem_cons.2 ⟨hP.rat c, hall⟩
  · exact hall

theorem infiniteProduct (c : Rat) {fs : List Expr} (hinf : P Expr.infinity) (h : ∀ f ∈ fs, P f) :
    P (infiniteProduct c fs) := by
  simp only [Expr.infiniteProduct]
  generalize (if c < 0 then (-1 : Int) else 1) = unit
  generalize (if fs.all isConstant then (Expr.mul fs).constantSign? else none) = restSign
  cases restSign with
  | none => exact hP.assemble _ (fun _ => hinf) h
  | some s =>
    dsimp only
    split
    · exact hP.undefined
    · split
      · exact hinf
      · exact hP.negInfinity_of_infinity hinf

theorem plainProduct {fs : List Expr} (h : ∀ f ∈ fs, P f) : P (plainProduct fs) := by
  have hflat := hP.flattenFactors h
  rw [Expr.plainProduct, collectRebuilt_parts]
  exact hP.assemble _ (fun hinf => hflat _ (by simpa using hinf)) fun f hf => hflat f (mem_plainFactors.1 hf).1

theorem iPower (n : Int) : P (iPower n) := by
  unfold Expr.iPower
  split
  · exact hP.rat 1
  · exact hP.i
  · exact hP.rat _
  · exact (hP.mul _).2 (by simp [hP.rat, hP.i])

end Factorwise

namespace Compositional

variable {P : Expr → Prop} (hP : Compositional P)

include hP

/-! ## Sums -/

theorem flattenTerms {ts : List Expr} (h : ∀ t ∈ ts, P t) : ∀ t ∈ flattenTerms ts, P t :=
  fun t ht => (flattenTerms_all (hP.add _).1 h t ht).1

theorem ofTerms {ts : List Expr} (h : ∀ t ∈ ts, P t) : P (ofTerms ts) := by
  unfold Expr.ofTerms
  split
  · exact hP.rat 0
  · exact h _ (List.mem_singleton_self _)
  · have hperm : (sortTerms ts).Perm ts := List.mergeSort_perm ts _
    exact (hP.add _).2 fun t ht => h t (hperm.mem_iff.1 ht)

theorem ofTerms_concat {ts : List Expr} (h : ∀ t ∈ ts, P t) {x : Expr} (hx : P x) :
    P (Expr.ofTerms (ts ++ [x])) := by
  refine hP.ofTerms fun t ht => ?_
  rcases List.mem_append.1 ht with ht | ht
  · exact h t ht
  · exact List.mem_singleton.1 ht ▸ hx

/-- Only a sum with an infinite term notes an infinity. -/
theorem infinity_of_insertAll {ts : List Expr} (h : ∀ t ∈ ts, P t)
    (hinf : ((ts.foldl TermGroups.insert .empty).hasPosInfinity || (ts.foldl TermGroups.insert .empty).hasNegInfinity) = true) :
    P Expr.infinity := by
  rw [TermGroups.insertAll_parts] at hinf
  simp only [TermGroups.empty, Bool.false_or, Bool.or_eq_true, List.any_eq_true, decide_eq_true_eq] at hinf
  rcases hinf with ⟨t, ht, hs⟩ | ⟨t, ht, hs⟩ <;> exact hP.infinity_of_sign (h t ht) hs

theorem sum {ts : List Expr} (h : ∀ t ∈ ts, P t) : P (sum ts) := by
  have hflat := hP.flattenTerms h
  have hgroups := TermGroups.rests_insertAll (Q := P) (fun t ht _ _ => hP.splitCoeff (hflat t ht)) (g := .empty)
    (by simp [TermGroups.empty])
  have hflags := hP.infinity_of_insertAll hflat
  simp only [Expr.sum]
  generalize (Expr.flattenTerms ts).foldl TermGroups.insert TermGroups.empty = parts at hgroups hflags ⊢
  have hkept : ∀ t ∈ keptTerms parts.groups, P t := by
    intro t ht
    simp only [keptTerms, List.mem_map, List.mem_filter] at ht
    obtain ⟨g, ⟨hg, -⟩, rfl⟩ := ht
    exact hP.withCoeff g.2 (hgroups g hg)
  rw [keptTerms] at hkept
  split
  · exact hP.undefined
  · split
    · exact hP.undefined
    · split
      · rename_i hany
        have hinf : P (if parts.hasPosInfinity then Expr.infinity else Expr.negInfinity) := by
          split
          · exact hflags hany
          · exact hP.negInfinity_of_infinity (hflags hany)
        split
        · exact hinf
        · exact hP.ofTerms_concat hkept hinf
      · split
        · exact hP.ofTerms_concat hkept (hP.rat _)
        · exact hP.ofTerms hkept

/-! ## Products -/

theorem collectBases {fs : List Expr} (h : ∀ f ∈ fs, P f) :
    ∀ g ∈ (collectBases fs).others, P g.1 ∧ P g.2 := by
  refine collectBases_all (P := fun b x => P b ∧ P x)
    (fun hx hy => ⟨hx.1, hP.sum (by simpa using ⟨hx.2, hy.2⟩)⟩) fun f hf _ _ => ?_
  cases f with
  | pow b x => exact (hP.pow b x).1 (h _ hf)
  | _ => exact ⟨h _ hf, hP.rat 1⟩

theorem plainPower {b x : Expr} (hb : P b) (hx : P x) : P (plainPower b x) := by
  unfold Expr.plainPower
  split_ifs
  · exact hP.undefined
  · exact hP.rat 1
  · exact hb
  · exact hP.rat 1
  · exact hP.undefined
  · exact (hP.pow b x).2 ⟨hb, hx⟩

/-! ## Rational and infinite powers -/

theorem radical (n p q : Nat) : ∀ f ∈ (radical n p q).2, P f := by
  have hroot (b x : Rat) : ∀ f ∈ [Expr.pow (Expr.rat b) (Expr.rat x)], P f := by
    simp [hP.pow, hP.rat]
  unfold Expr.radical
  split
  · simp
  · split
    · simp
    · split
      · exact hroot _ _
      · exact hroot _ _

theorem positiveRoot (b x : Rat) : P (positiveRoot b x) := by
  have hroots : ∀ f ∈ sortFactors ((Expr.radical b.num.natAbs (x - x.floor).num.natAbs x.den).2 ++
      (Expr.radical b.den (x.den - (x - x.floor).num.natAbs) x.den).2), P f := by
    intro f hf
    rcases List.mem_append.1 ((List.mergeSort_perm _ _).mem_iff.1 hf) with hf | hf
    · exact hP.radical _ _ _ f hf
    · exact hP.radical _ _ _ f hf
  simp only [Expr.positiveRoot]
  generalize sortFactors _ = fs at hroots ⊢
  split
  · exact (hP.pow _ _).2 ⟨hP.rat b, hP.rat x⟩
  · split
    · split
      · exact hP.rat 1
      · exact hroots _ (List.mem_singleton_self _)
      · exact (hP.mul _).2 hroots
    · split
      · exact hP.rat _
      · exact (hP.mul _).2 (List.forall_mem_cons.2 ⟨hP.rat _, hroots⟩)

theorem infinitePower {b x : Expr} (hinf : P Expr.infinity) (hb : P b) (hx : P x) (sign : Int) :
    P (infinitePower b x sign) := by
  have hkept : P (Expr.pow b x) := (hP.pow b x).2 ⟨hb, hx⟩
  have hzero : P Expr.zero := hP.rat 0
  simp only [Expr.infinitePower]
  split
  · exact hkept
  · split
    · exact hkept
    · split
      · exact hkept
      · repeat' split
        all_goals first | exact hkept | exact hinf | exact hP.undefined | exact hzero

theorem infiniteBase {b x : Expr} (hinf : P Expr.infinity) (hb : P b) (hx : P x) (sign : Int) :
    P (infiniteBase b x sign) := by
  have hkept : P (Expr.pow b x) := (hP.pow b x).2 ⟨hb, hx⟩
  unfold Expr.infiniteBase
  split
  · split
    · exact hinf
    · split
      · split
        · exact hinf
        · exact hP.negInfinity_of_infinity hinf
      · exact hkept
  · exact hP.rat 0
  · exact hkept

/-! ## Steps and rounds -/

section Steps

variable {power : Expr → Expr → Expr} {product : List Expr → Expr}
  (hpow : ∀ b x, P b → P x → P (power b x)) (hprod : ∀ fs, (∀ f ∈ fs, P f) → P (product fs))

include hprod

theorem multiplyOut {parts : FactorGroups Expr} (hinf : parts.hasInfinity = true → P Expr.infinity)
    (h : ∀ f ∈ parts.others, P f) : P (multiplyOut product parts) := by
  unfold Expr.multiplyOut
  split
  · split
    · exact hP.undefined
    · exact hP.rat 0
  · split
    · -- a factor is a product: everything goes round once more
      refine hprod _ fun f hf => ?_
      rcases List.mem_append.1 hf with hf | hf
      · exact h f hf
      · rcases List.mem_cons.1 hf with rfl | hf
        · exact hP.rat _
        · split at hf
          · rename_i hany
            exact List.mem_singleton.1 hf ▸ hinf hany
          · simp at hf
    · split
      · rename_i hany
        exact hP.infiniteProduct _ (hinf hany) h
      · split
        · rename_i ts hts
          have hadd : P (Expr.add ts) := h _ (by simp [hts])
          split
          · exact hadd
          · -- the coefficient spreads over the terms of a lone sum
            refine hP.sum fun t ht => ?_
            obtain ⟨u, hu, rfl⟩ := List.mem_map.1 ht
            exact hprod _ (by simpa [hP.rat] using (hP.add ts).1 hadd u hu)
        · exact hP.assemble _ Bool.noConfusion h

theorem rationalPower (b x : Rat) : P (rationalPower product b x) := by
  have hkept : P (Expr.pow (Expr.rat b) (Expr.rat x)) := (hP.pow _ _).2 ⟨hP.rat b, hP.rat x⟩
  unfold Expr.rationalPower
  split
  · split
    · exact hP.rat 0
    · exact hP.undefined
  · split
    · split
      · exact hP.rat _
      · exact hkept
    · split
      · exact hkept
      · split
        · split
          · exact hprod _ (by simpa using ⟨hP.iPower _, hP.positiveRoot _ _⟩)
          · exact hkept
        · exact hP.positiveRoot b x

include hpow

theorem powerOfBase {b x : Expr} (hb : P b) (hx : P x) : P (powerOfBase power product b x) := by
  have hkept : P (Expr.pow b x) := (hP.pow b x).2 ⟨hb, hx⟩
  unfold Expr.powerOfBase
  split
  · obtain ⟨hb0, hx0⟩ := (hP.pow _ _).1 hb
    split
    · exact hpow _ _ hb0 (hprod _ (by simpa using ⟨hx0, hx⟩))
    · exact hkept
  · have hfs := (hP.mul _).1 hb
    split
    · refine hprod _ fun f hf => ?_
      obtain ⟨g, hg, rfl⟩ := List.mem_map.1 hf
      exact hpow g x (hfs g hg) hx
    · split
      · rename_i c rest
        have hrest := hP.ofFactors.2 (List.forall_mem_cons.1 hfs).2
        split
        · refine hprod _ (List.forall_mem_cons.2 ⟨hpow _ _ (hP.rat c) hx, ?_⟩)
          simpa using (hP.pow _ _).2 ⟨hrest, hx⟩
        · exact hkept
      · exact hkept
  · exact hkept

theorem powerStep {b x : Expr} (hb : P b) (hx : P x) : P (powerStep power product b x) := by
  unfold Expr.powerStep
  split
  · exact hP.undefined
  · split
    · exact hP.rat 1
    · split
      · exact hb
      · split
        · -- a power of one
          split
          · exact hP.rat 1
          · exact hP.undefined
        · split
          · rename_i hs
            exact hP.infinitePower (hP.infinity_of_sign hx hs) hb hx _
          · rename_i hs
            exact hP.infiniteBase (hP.infinity_of_sign hb hs) hb hx _
          · split
            · exact hP.rationalPower hprod _ _
            · split
              · exact hP.iPower _
              · exact hP.powerOfBase hpow hprod hb hx
            · exact hP.arg _ _ hx
            · -- the coefficient of a logarithm in the exponent of `e` becomes the exponent
              have hlog := (hP.mul _).1 hx _ (List.mem_cons_of_mem _ (List.mem_singleton_self _))
              exact hpow _ _ (hP.arg _ _ hlog) (hP.rat _)
            · exact hP.powerOfBase hpow hprod hb hx

theorem productStep {fs : List Expr} (h : ∀ f ∈ fs, P f) : P (productStep power product fs) := by
  have hflat := hP.flattenFactors h
  have hbases := hP.collectBases hflat
  have hinf : (Expr.collectBases (Expr.flattenFactors fs)).hasInfinity = true → P Expr.infinity := by
    rw [collectBases_parts]
    exact fun hmem => hflat _ (by simpa using hmem)
  simp only [Expr.productStep]
  generalize Expr.collectBases (Expr.flattenFactors fs) = bases at hbases hinf ⊢
  have hrebuilt : ∀ f ∈ bases.others.map fun g => power g.1 g.2, P f := by
    intro f hf
    obtain ⟨g, hg, rfl⟩ := List.mem_map.1 hf
    exact hpow _ _ (hbases g hg).1 (hbases g hg).2
  split
  · exact hP.undefined
  · split
    · exact hP.undefined
    · rw [collectRebuilt_parts]
      refine hP.multiplyOut hprod (fun hany => ?_) fun f hf => hrebuilt f (mem_plainFactors.1 hf).1
      rcases Bool.or_eq_true_iff.1 hany with hany | hany
      · exact hinf hany
      · exact hrebuilt _ (by simpa using hany)

end Steps

theorem within (n : Nat) :
    (∀ fs, (∀ f ∈ fs, P f) → P (productWithin n fs)) ∧ ∀ b x, P b → P x → P (powerWithin n b x) := by
  induction n with
  | zero => exact ⟨fun _ => hP.productStep (fun _ _ => hP.plainPower) fun _ => hP.plainProduct, fun _ _ => hP.plainPower⟩
  | succ n ih =>
    obtain ⟨hprod, hpow⟩ := ih
    exact ⟨fun _ => hP.productStep hpow hprod, fun _ _ => hP.powerStep hpow hprod⟩

theorem product {fs : List Expr} (h : ∀ f ∈ fs, P f) : P (product fs) := (hP.within _).1 fs h

theorem power {b x : Expr} (hb : P b) (hx : P x) : P (power b x) := (hP.within _).2 b x hb hx

theorem neg {x : Expr} (h : P x) : P (-x) :=
  hP.product (by simpa using ⟨hP.rat (-1), h⟩)

end Compositional

theorem Hereditary.negInfinity {P : Expr → Prop} (hP : Hereditary P) : P negInfinity :=
  hP.negInfinity_of_infinity hP.infinity

/-! ## Infinity -/

theorem existAny_eq_false {q : Expr → Bool} {xs : List Expr} : existAny q xs = false ↔ ∀ x ∈ xs, x.exist q = false := by
  induction xs with
  | nil => simp [existAny]
  | cons x xs ih => simp [existAny, ih]

/-- That infinity does not occur is decided by the parts. -/
theorem compositional_noInfinity : Compositional fun x => x.contains infinity = false where
  rat _ := by simp [contains, exist]
  i := by simp [contains, exist]
  undefined := by simp [contains, exist]
  add ts := by simp [contains, exist, existAny_eq_false]
  mul fs := by simp [contains, exist, existAny_eq_false]
  pow b x := by simp [contains, exist]
  arg f x h := by simpa [contains, exist] using h

mutual

theorem exist_mono {p q : Expr → Bool} (h : ∀ x, p x = true → q x = true) : ∀ x : Expr, x.exist p = true → x.exist q = true
  | add xs, hx => by
    rw [exist, Bool.or_eq_true] at hx ⊢
    exact hx.imp (h _) (existAny_mono h xs)
  | mul xs, hx => by
    rw [exist, Bool.or_eq_true] at hx ⊢
    exact hx.imp (h _) (existAny_mono h xs)
  | pow b x, hx => by
    rw [exist, Bool.or_eq_true, Bool.or_eq_true] at hx ⊢
    exact hx.imp (Or.imp (h _) (exist_mono h b)) (exist_mono h x)
  | fn f x, hx => by
    rw [exist, Bool.or_eq_true] at hx ⊢
    exact hx.imp (h _) (exist_mono h x)
  | rat _, hx | pi, hx | e, hx | i, hx | infinity, hx | undefined, hx | var _, hx => h _ hx

theorem existAny_mono {p q : Expr → Bool} (h : ∀ x, p x = true → q x = true) :
    ∀ xs : List Expr, existAny p xs = true → existAny q xs = true
  | [], hx => hx
  | x :: xs, hx => by
    rw [existAny, Bool.or_eq_true] at hx ⊢
    exact hx.imp (exist_mono h x) (existAny_mono h xs)

end

theorem noInfinity_of_isFinite {x : Expr} (h : x.isFinite = true) : x.contains infinity = false := by
  rw [isFinite, Bool.not_eq_true'] at h
  rw [contains, ← Bool.not_eq_true]
  intro hinf
  rw [exist_mono (by simp +contextual) x hinf] at h
  cases h

/-! ## Variables -/

variable {p : String → Prop}

mutual

/-- Every variable of the tree has the property. -/
def VarsIn (p : String → Prop) : Expr → Prop
  | var s => p s
  | add ts => AllVarsIn p ts
  | mul fs => AllVarsIn p fs
  | pow b x => VarsIn p b ∧ VarsIn p x
  | fn _ x => VarsIn p x
  | _ => True

/-- Every variable of the trees of a list has the property. -/
def AllVarsIn (p : String → Prop) : List Expr → Prop
  | [] => True
  | x :: xs => VarsIn p x ∧ AllVarsIn p xs

end

theorem allVarsIn_iff (xs : List Expr) : AllVarsIn p xs ↔ ∀ x ∈ xs, VarsIn p x := by
  induction xs with
  | nil => simp [AllVarsIn]
  | cons x xs ih => simp [AllVarsIn, ih]

theorem hereditary_varsIn : Hereditary (VarsIn p) where
  rat _ := trivial
  i := trivial
  infinity := trivial
  undefined := trivial
  add := allVarsIn_iff
  mul := allVarsIn_iff
  pow _ _ := Iff.rfl
  arg _ _ := id

theorem mem_insertName {s t : String} {acc : List String} : s ∈ insertName t acc ↔ s = t ∨ s ∈ acc := by
  induction acc with
  | nil => simp [insertName]
  | cons u acc ih =>
    simp only [insertName]
    split
    · simp
    · split
      · rename_i h
        simp [h]
      · simp only [List.mem_cons, ih]
        exact or_left_comm

mutual

theorem forall_mem_collectVars : ∀ (x : Expr) (acc : List String),
    (∀ s ∈ collectVars x acc, p s) ↔ VarsIn p x ∧ ∀ s ∈ acc, p s
  | var t, acc => by simp [collectVars, mem_insertName, VarsIn]
  | add ts, acc => by
    rw [collectVars, forall_mem_collectVarsAll ts acc]
    rfl
  | mul fs, acc => by
    rw [collectVars, forall_mem_collectVarsAll fs acc]
    rfl
  | pow b x, acc => by
    rw [collectVars, forall_mem_collectVars x, forall_mem_collectVars b, hereditary_varsIn.pow, and_assoc,
      and_left_comm]
  | fn f x, acc => by
    rw [collectVars, forall_mem_collectVars x]
    rfl
  | rat _, acc | pi, acc | e, acc | i, acc | infinity, acc | undefined, acc => by
    simp [collectVars, VarsIn]

theorem forall_mem_collectVarsAll : ∀ (xs : List Expr) (acc : List String),
    (∀ s ∈ collectVarsAll xs acc, p s) ↔ AllVarsIn p xs ∧ ∀ s ∈ acc, p s
  | [], acc => by simp [collectVarsAll, AllVarsIn]
  | x :: xs, acc => by
    rw [collectVarsAll, forall_mem_collectVarsAll xs, forall_mem_collectVars x, AllVarsIn, and_assoc,
      and_left_comm]

end

mutual

/-- A variable that does not occur is none of the variables. -/
theorem varsIn_ne_iff (name : String) : ∀ x : Expr, VarsIn (· ≠ name) x ↔ x.hasVar name = false
  | var s => by simp [VarsIn, hasVar, exist]
  | add ts => by
    have hts := allVarsIn_ne_iff name ts
    simpa [VarsIn, hasVar, exist] using hts
  | mul fs => by
    have hfs := allVarsIn_ne_iff name fs
    simpa [VarsIn, hasVar, exist] using hfs
  | pow b x => by
    have hb := varsIn_ne_iff name b
    have hx := varsIn_ne_iff name x
    simp only [hasVar] at hb hx
    simp [VarsIn, hasVar, exist, hb, hx]
  | fn f x => by
    have hx := varsIn_ne_iff name x
    simpa [VarsIn, hasVar, exist] using hx
  | rat _ | pi | e | i | infinity | undefined => by simp [VarsIn, hasVar, exist]

theorem allVarsIn_ne_iff (name : String) : ∀ xs : List Expr,
    AllVarsIn (· ≠ name) xs ↔ existAny (· = var name) xs = false
  | [] => by simp [AllVarsIn, existAny]
  | x :: xs => by
    have hx := varsIn_ne_iff name x
    have hxs := allVarsIn_ne_iff name xs
    simp only [hasVar] at hx
    simp [AllVarsIn, existAny, hx, hxs]

end

/-- The property holds of every variable in the list of variables. -/
theorem forall_mem_freeVars {x : Expr} : (∀ s ∈ x.freeVars, p s) ↔ VarsIn p x := by
  simp [freeVars, forall_mem_collectVars]

theorem varsIn_true (x : Expr) : VarsIn (fun _ => True) x := forall_mem_freeVars.1 fun _ _ => trivial

end SymbolicSolver.Expr
