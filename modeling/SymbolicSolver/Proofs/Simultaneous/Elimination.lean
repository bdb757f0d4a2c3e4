import Mathlib
import SymbolicSolver.Proofs.Simplify.Linear
import SymbolicSolver.Proofs.Simultaneous.Bindings

/-!
# Elimination in linear systems

An equation that mentions an unknown is affine in it, so a linear system always has a pivot, and replacing the unknown
by its value leads to a linear system with one unknown less. The solutions of the smaller system with the pivot added
are the solutions of the larger one.

Simplification leaves a linear form alone only while the reciprocal of its common denominator is computed. Beyond that
size a coefficient may be taken for something else, so the coefficients of all systems on the way are bounded.
-/

namespace SymbolicSolver.Elimination

open SymbolicSolver.Expr Bindings

/-! ## Steps -/

/-- Equations and the unknowns to solve them for. -/
structure System where
  equations : List Expr
  unknowns : List String

/-- One elimination: the unknown of an affine pivot is replaced by its value in the other equations. -/
inductive Step (s : System) : System → Prop
  | eliminate {fs : List Expr} {p : Pivot} {x : Expr}
      (hopen : openEquations? s.unknowns s.equations = some fs)
      (hpivot : affinePivot? s.unknowns fs = some p) (hx : x ∈ p.values) :
      Step s ⟨p.others.map fun f => f.subst p.unknown x, s.unknowns.filter (· ≠ p.unknown)⟩

/-- Every system on the way satisfies a condition. -/
def Along (P : System → Prop) (s : System) : Prop := ∀ t, Relation.ReflTransGen Step s t → P t

theorem Along.self {P : System → Prop} {s : System} (h : Along P s) : P s := h s .refl

theorem Along.step {P : System → Prop} {s t : System} (h : Along P s) (hst : Step s t) : Along P t :=
  fun u hu => h u (hu.head hst)

/-- The size of a coefficient. Thirteen quotients of such coefficients have a common denominator whose reciprocal is
still computed. -/
def maxCoeffBits : Nat := 2520

/-- No coefficient is larger than that. -/
def Moderate (s : System) : Prop := ∀ f ∈ s.equations, CoeffBits maxCoeffBits f

/-- At most twelve different unknowns, and equations that are linear in them. -/
structure LinearSystem (s : System) : Prop where
  nodup : s.unknowns.Nodup
  few : s.unknowns.length ≤ 12
  linear : ∀ f ∈ s.equations, Linear f
  vars : ∀ f ∈ s.equations, VarsIn (· ∈ s.unknowns) f

/-- The assignment satisfies the equations. -/
def Solves (ρ : String → Rat) (fs : List Expr) : Prop := ∀ f ∈ fs, valueAt ρ f = 0

variable {unknowns : List String} {f : Expr}

theorem Linear.entire (h : Linear f) : Entire f := fun ρ => h.defined (.ofVars ρ)

theorem simplify_of_coeffBits (hf : Linear f) (hvars : VarsIn (· ∈ unknowns) f) (hfew : unknowns.length ≤ 12)
    (hbits : CoeffBits (2 * maxCoeffBits) f) : f.simplify = f := by
  refine hf.simplify ?_
  have hlen := hf.length_terms_le hvars
  have hden := hbits.denBits_le
  have hmax : 13 * (2 * maxCoeffBits) + 2 ≤ maxPowerBits := by decide
  have hmul : f.terms.length * (2 * maxCoeffBits) ≤ 13 * (2 * maxCoeffBits) :=
    Nat.mul_le_mul_right _ (by omega)
  omega

/-! ## Open equations -/

/-- A constant that is taken for zero. -/
def Negligible (f : Expr) : Prop := ∃ z, f.evaluateConstant = .ok z ∧ z.norm < 1e-12

theorem mentions_eq_false : mentions unknowns f = false ↔ ∀ v ∈ unknowns, f.hasVar v = false := by
  simp [mentions]

/-- A linear form without unknowns is a rational. -/
theorem eq_rat_of_mentions (hf : Linear f) (hvars : VarsIn (· ∈ unknowns) f)
    (hm : mentions unknowns f = false) : f = rat (offset f) := by
  have hnone : Plain (fun _ => False) f := by
    refine hf.plain (forall_mem_freeVars.1 fun v hv => ?_)
    have hne := (varsIn_ne_iff v f).2 (mentions_eq_false.1 hm v (forall_mem_freeVars.2 hvars v hv))
    exact forall_mem_freeVars.2 hne v hv rfl
  refine linear_ext hf (linear_rat _) fun ρ => ?_
  exact (hnone.reading (r := .ofVars ρ) (s := .ofVars fun _ => 0) fun _ h => h.elim).2

/-- What is left of linear equations: nothing if one of them is a constant other than zero, else those that mention an
unknown, and the constants that are dropped are zero or taken for zero. -/
inductive Opened (unknowns : List String) (fs : List Expr) : Option (List Expr) → Prop
  | inconsistent {c : Rat} (hc : c ≠ 0) (hmem : rat c ∈ fs) : Opened unknowns fs none
  | consistent {gs : List Expr} (hkept : ∀ g ∈ gs, g ∈ fs ∧ mentions unknowns g = true)
      (hall : ∀ f ∈ fs, f ∈ gs ∨ ∃ c, f = rat c ∧ (c = 0 ∨ Negligible f)) : Opened unknowns fs (some gs)

namespace Opened

variable {fs : List Expr} {r : Option (List Expr)}

theorem drop (h : Opened unknowns fs r) (hf : ∃ c, f = rat c ∧ (c = 0 ∨ Negligible f)) :
    Opened unknowns (f :: fs) r := by
  cases h with
  | inconsistent hc hmem => exact .inconsistent hc (List.mem_cons_of_mem _ hmem)
  | consistent hkept hall =>
    refine .consistent (fun g hg => ?_) (List.forall_mem_cons.2 ⟨.inr hf, hall⟩)
    exact ⟨List.mem_cons_of_mem _ (hkept g hg).1, (hkept g hg).2⟩

theorem keep (h : Opened unknowns fs r) (hm : mentions unknowns f = true) :
    Opened unknowns (f :: fs) (r.map (f :: ·)) := by
  cases h with
  | inconsistent hc hmem => exact .inconsistent hc (List.mem_cons_of_mem _ hmem)
  | consistent hkept hall =>
    refine .consistent (List.forall_mem_cons.2 ⟨⟨List.mem_cons_self, hm⟩, fun g hg => ?_⟩)
      (List.forall_mem_cons.2 ⟨.inl List.mem_cons_self, fun h hh => ?_⟩)
    · exact ⟨List.mem_cons_of_mem _ (hkept g hg).1, (hkept g hg).2⟩
    · exact (hall h hh).imp_left (List.mem_cons_of_mem _)

end Opened

theorem opened_linear {fs : List Expr} (hlinear : ∀ f ∈ fs, Linear f)
    (hvars : ∀ f ∈ fs, VarsIn (· ∈ unknowns) f) (hsimplify : ∀ f ∈ fs, f.simplify = f) :
    Opened unknowns fs (openEquations? unknowns fs) := by
  induction fs with
  | nil => exact .consistent (by simp) (by simp)
  | cons f fs ih =>
    obtain ⟨hf, hlinear⟩ := List.forall_mem_cons.1 hlinear
    obtain ⟨hvf, hvars⟩ := List.forall_mem_cons.1 hvars
    obtain ⟨hsf, hsimplify⟩ := List.forall_mem_cons.1 hsimplify
    have hrest := ih hlinear hvars hsimplify
    simp only [openEquations?, hsf]
    by_cases hzero : f.isZero = true
    · rw [if_pos hzero]
      refine hrest.drop ⟨0, ?_, .inl rfl⟩
      cases f <;> simp_all [isZero]
    · rw [if_neg hzero]
      by_cases hm : mentions unknowns f = true
      · rw [if_pos hm]
        exact hrest.keep hm
      · have hrat := eq_rat_of_mentions hf hvf (Bool.eq_false_of_not_eq_true hm)
        have hnonzero : offset f ≠ 0 := fun h0 => hzero (by rw [hrat, h0]; rfl)
        have hnone : Opened unknowns (f :: fs) none :=
          .inconsistent hnonzero (hrat ▸ List.mem_cons_self)
        rw [if_neg hm]
        split
        · rename_i z hz
          split
          · rename_i hnorm
            exact hrest.drop ⟨offset f, hrat, .inr ⟨z, hz, hnorm⟩⟩
          · exact hnone
        · exact hnone

/-! ## Pivots -/

theorem neg_value {x : Expr} (hx : Linear x) (ρ : String → Rat) : valueAt ρ (-x) = -valueAt ρ x := by
  have h := product_keepsValue (.ofVars ρ) [rat (-1), x] (by simpa using hx.defined _)
  have hneg : valueAt ρ (-x) = _ := h.2
  rw [hneg]
  simp

theorem quotient_value {x : Expr} (hx : Linear x) {q : Rat} (hq : q ≠ 0) (ρ : String → Rat) :
    valueAt ρ (-x / rat q) = -valueAt ρ x / q := by
  have hdiv := ((neg_linear hx).defined (.ofVars ρ)).over (defined_rat q) hq
  rw [valueAt, hdiv.2, ← neg_value hx]
  rfl

/-- The rest of an equation has no larger coefficients. -/
theorem coeffBits_withoutVar {n : Nat} (hn : 1 ≤ n) (hf : Linear f) {v : String} (hv : f.hasVar v = true)
    (hbits : CoeffBits n f) : CoeffBits n (f.withoutVar v) := by
  have hvalue := (hf.coefficients? hv).2
  have hplain := (hf.withoutVar v).plain (hf.varsIn_withoutVar (v := v) (varsIn_true f))
  obtain ⟨hoffset, hslope⟩ := (hf.coeffBits_iff hn).1 hbits
  have hoffset' : offset (f.withoutVar v) = offset f := by
    rw [offset, offset, hvalue, mul_zero, add_zero]
  rw [(hf.withoutVar v).coeffBits_iff hn]
  refine ⟨hoffset' ▸ hoffset, fun s => ?_⟩
  by_cases hs : s = v
  · have hsame : valueAt (unitPoint s) (f.withoutVar v) = valueAt (fun _ => 0) (f.withoutVar v) := by
      refine (hplain.reading fun w hw => ?_).2
      show unitPoint s w = 0
      rw [unitPoint, if_neg (hs ▸ hw.2)]
    have hzero : slopeAlong (f.withoutVar v) s = 0 := by
      rw [slopeAlong, offset, hsame, sub_self]
    have hone : Rational.bits 0 = 1 := by decide
    rw [hzero, hone]
    exact hn
  · have hslope' : slopeAlong (f.withoutVar v) s = slopeAlong f s := by
      rw [slopeAlong, slopeAlong, hoffset', hvalue, unitPoint, if_neg (Ne.symm hs)]
      ring
    exact hslope' ▸ hslope s

/-- The value of an unknown in a linear equation. -/
theorem affineValue?_linear (hf : Linear f) (hvars : VarsIn (· ∈ unknowns) f) (hfew : unknowns.length ≤ 12)
    (hbits : CoeffBits maxCoeffBits f) {v : String} (hv : f.hasVar v = true) :
    ∃ x, affineValue? unknowns f v = some x ∧ Linear x ∧ VarsIn (fun w => w ∈ unknowns ∧ w ≠ v) x ∧
      ∀ ρ, valueAt ρ x = ρ v ↔ valueAt ρ f = 0 := by
  obtain ⟨hcoeffs, hvalue⟩ := hf.coefficients? hv
  have hrest := hf.withoutVar v
  have hq := hf.slope_ne_zero hv
  have hone : 1 ≤ maxCoeffBits := by decide
  have hqbits := ((hf.coeffBits_iff hone).1 hbits).2 v
  have hbits' := (hrest.coeffBits_iff hone).1 (coeffBits_withoutVar hone hf hv hbits)
  have hrestvars := hf.varsIn_withoutVar (v := v) hvars
  generalize slopeAlong f v = q at hcoeffs hvalue hq hqbits
  generalize f.withoutVar v = rest at hcoeffs hvalue hrest hbits' hrestvars
  have hfits : powerFits q (-1) = true := powerFits_neg_one (hqbits.trans (by decide))
  have hlinear : Linear (-rest / rat q) := div_linear (neg_linear hrest) hq hfits
  have hplain : Plain (fun w => w ∈ unknowns ∧ w ≠ v) (-rest / rat q) :=
    inherited_plain.quotient (hereditary_plain.neg (hrest.plain hrestvars)) trivial
  have hquotient : CoeffBits (2 * maxCoeffBits) (-rest / rat q) := by
    have hbound (c : Rat) (hc : Rational.bits c ≤ maxCoeffBits) : Rational.bits (-c / q) ≤ 2 * maxCoeffBits := by
      have hdiv := Rational.bits_div_le (-c) q
      rw [Rational.bits_neg] at hdiv
      omega
    have hoffset : offset (-rest / rat q) = -offset rest / q := quotient_value hrest hq _
    have hslope (s : String) : slopeAlong (-rest / rat q) s = -slopeAlong rest s / q := by
      rw [slopeAlong, hoffset, quotient_value hrest hq, slopeAlong]
      ring
    rw [hlinear.coeffBits_iff (by decide), hoffset]
    exact ⟨hbound _ hbits'.1, fun s => hslope s ▸ hbound _ (hbits'.2 s)⟩
  refine ⟨-rest / rat q, ?_, hlinear, hplain.varsIn, fun ρ => ?_⟩
  · have hmentions : mentions unknowns (rat q) = false := by
      simp [mentions, hasVar, exist]
    have hsimplify := simplify_of_coeffBits hlinear (hplain.mono fun _ => And.left).varsIn hfew hquotient
    simp only [affineValue?, hcoeffs, hmentions, hsimplify]
    simp [isZero, hq]
  · rw [quotient_value hrest hq, hvalue, div_eq_iff hq]
    constructor <;> intro h <;> linear_combination -h

/-- The first equation that is left has a pivot, in an unknown that occurs in it. -/
theorem affinePivot?_linear (hf : Linear f) (hvars : VarsIn (· ∈ unknowns) f) (hfew : unknowns.length ≤ 12)
    (hbits : CoeffBits maxCoeffBits f) (hm : mentions unknowns f = true) (fs : List Expr) :
    ∃ v x, v ∈ unknowns ∧ affinePivot? unknowns (f :: fs) = some ⟨v, [x], fs⟩ ∧ Linear x ∧
      VarsIn (fun w => w ∈ unknowns ∧ w ≠ v) x ∧ ∀ ρ, valueAt ρ x = ρ v ↔ valueAt ρ f = 0 := by
  obtain ⟨w, hw, hvar⟩ := List.any_eq_true.1 hm
  have hmem : w ∈ unknowns.filter fun v => f.hasVar v := List.mem_filter.2 ⟨hw, hvar⟩
  obtain ⟨v, vs, hvs⟩ := List.exists_cons_of_ne_nil (List.ne_nil_of_mem hmem)
  obtain ⟨hv, hoccurs⟩ := List.mem_filter.1 (hvs ▸ List.mem_cons_self : v ∈ unknowns.filter fun v => f.hasVar v)
  obtain ⟨x, hx, hlinear, hxvars, hvalue⟩ := affineValue?_linear hf hvars hfew hbits hoccurs
  refine ⟨v, x, hv, ?_, hlinear, hxvars, hvalue⟩
  simp only [affinePivot?, splits, List.findSome?_cons, hf.expand, hvs, hx, Option.map_some]
  rfl

theorem branches?_singleton (solve : List Expr → List String → Option (List Bindings)) (v : String) (x : Expr)
    (fs : List Expr) :
    branches? solve unknowns ⟨v, [x], fs⟩ =
      (solve (fs.map fun f => f.subst v x) (unknowns.filter (· ≠ v))).map fun ms =>
        ms.map fun m => m.extend v x := by
  simp only [branches?, List.mapM_cons, List.mapM_nil]
  cases solve (fs.map fun f => f.subst v x) (unknowns.filter (· ≠ v)) <;> simp

/-! ## One elimination -/

theorem LinearSystem.unknowns_perm {s : System} (h : LinearSystem s) {v : String} (hv : v ∈ s.unknowns) :
    s.unknowns.Perm (v :: s.unknowns.filter (· ≠ v)) := by
  have hnodup : (v :: s.unknowns.filter (· ≠ v)).Nodup :=
    List.nodup_cons.2 ⟨by simp, h.nodup.filter _⟩
  refine (List.perm_ext_iff_of_nodup h.nodup hnodup).2 fun w => ?_
  by_cases hw : w = v <;> simp [hw, hv]

/-- Linear equations stay linear, and their unknowns become fewer. -/
theorem LinearSystem.eliminated {s : System} (h : LinearSystem s) {fs : List Expr} (hfs : ∀ f ∈ fs, f ∈ s.equations)
    {v : String} {x : Expr} (hx : Linear x) (hxvars : VarsIn (fun w => w ∈ s.unknowns ∧ w ≠ v) x) :
    LinearSystem ⟨fs.map fun f => f.subst v x, s.unknowns.filter (· ≠ v)⟩ := by
  have hmem : ∀ w, (w ∈ s.unknowns ∧ w ≠ v) ↔ w ∈ s.unknowns.filter (· ≠ v) := by simp
  refine ⟨h.nodup.filter _, ((List.length_filter_le _ _).trans h.few), fun g hg => ?_, fun g hg => ?_⟩
  · obtain ⟨f, hf, rfl⟩ := List.mem_map.1 hg
    exact (h.linear f (hfs f hf)).subst hx v
  · obtain ⟨f, hf, rfl⟩ := List.mem_map.1 hg
    have hplain := (h.linear f (hfs f hf)).plain (h.vars f (hfs f hf))
    refine (hplain.subst (hx.plain hxvars) fun w hw hne => ⟨hw, hne⟩).mono (fun w => (hmem w).1) |>.varsIn

/-- Where the unknown has its value, the eliminated equations say the same as before. -/
theorem solves_eliminated {ρ : String → Rat} {fs : List Expr} (hfs : ∀ f ∈ fs, Linear f) {v : String} {x : Expr}
    (hx : Linear x) (hv : valueAt ρ x = ρ v) : Solves ρ (fs.map fun f => f.subst v x) ↔ Solves ρ fs := by
  rw [Solves, List.forall_mem_map]
  refine forall₂_congr fun f hf => ?_
  rw [(subst_value_of_agrees (hx.defined _) ((hfs f hf).defined _) hv).2]

/-! ## Runs -/

/-- A constant that is taken for zero is zero. -/
def Exact (s : System) : Prop := ∀ c, rat c ∈ s.equations → Negligible (rat c) → c = 0

/-- The answer to a linear system: none if nothing solves it, else a solved form. Every solution agrees with it, and
where no constant is taken for zero by mistake, what agrees with it is a solution. -/
inductive Answer (exact : Prop) (s : System) : List Bindings → Prop
  | inconsistent (h : ∀ ρ, ¬ Solves ρ s.equations) : Answer exact s []
  | solved {m : Bindings} (hm : Bindings.Solved s.unknowns m)
      (hcomplete : ∀ ρ, Solves ρ s.equations → Agrees ρ m)
      (hsound : exact → ∀ ρ, Agrees ρ m → Solves ρ s.equations) : Answer exact s [m]

/-- The open equations have the solutions of all of them. -/
theorem Opened.solves {s : System} {fs : List Expr} (h : Opened s.unknowns s.equations (some fs)) {ρ : String → Rat} :
    (Solves ρ s.equations → Solves ρ fs) ∧ (Exact s → Solves ρ fs → Solves ρ s.equations) := by
  cases h with
  | consistent hkept hall =>
    refine ⟨fun hs f hf => hs f (hkept f hf).1, fun hexact hs f hf => ?_⟩
    rcases hall f hf with hmem | ⟨c, rfl, hc⟩
    · exact hs f hmem
    · exact hc.elim id fun hneg => hexact c hf hneg

/-- Elimination of a pivot, once the smaller system is answered. -/
theorem Answer.extend {exact exact' : Prop} (hexact : exact → exact') {s : System} {f : Expr} {fs : List Expr}
    (h : LinearSystem s) (hopened : Opened s.unknowns s.equations (some (f :: fs))) (hrun : exact → Exact s)
    {v : String} {x : Expr} (hv : v ∈ s.unknowns) (hx : Linear x)
    (hxvars : VarsIn (fun w => w ∈ s.unknowns ∧ w ≠ v) x) (hvalue : ∀ ρ, valueAt ρ x = ρ v ↔ valueAt ρ f = 0)
    {ms : List Bindings}
    (hms : Answer exact' ⟨fs.map fun f => f.subst v x, s.unknowns.filter (· ≠ v)⟩ ms) :
    Answer exact s (ms.map fun m => m.extend v x) := by
  have hlinear : ∀ g ∈ fs, Linear g := fun g hg => by
    cases hopened with
    | consistent hkept hall => exact h.linear g (hkept g (List.mem_cons_of_mem _ hg)).1
  have hsolves (ρ : String → Rat) :
      Solves ρ (f :: fs) ↔ valueAt ρ x = ρ v ∧ Solves ρ (fs.map fun f => f.subst v x) := by
    rw [Solves, List.forall_mem_cons, ← hvalue]
    exact and_congr_right fun hρ => (solves_eliminated hlinear hx hρ).symm
  cases hms with
  | inconsistent hnone =>
    refine .inconsistent fun ρ hρ => ?_
    exact hnone ρ ((hsolves ρ).1 (hopened.solves.1 hρ)).2
  | @solved m hm hcomplete hsound =>
    have hother : v ∉ s.unknowns.filter (· ≠ v) := by simp
    have hothers : VarsIn (· ∈ s.unknowns.filter (· ≠ v)) x := by
      rw [← forall_mem_freeVars] at hxvars ⊢
      exact fun w hw => by simpa using hxvars w hw
    have hnames := h.unknowns_perm hv
    have hagrees (ρ : String → Rat) := agrees_extend (ρ := ρ) hm (Linear.entire hx) hothers hother
    refine .solved (hm.extend (Linear.entire hx) hothers hother hnames) (fun ρ hρ => ?_) fun he ρ hρ => ?_
    · obtain ⟨hvρ, hrest⟩ := (hsolves ρ).1 (hopened.solves.1 hρ)
      exact (hagrees ρ).2 ⟨hcomplete ρ hrest, hvρ⟩
    · obtain ⟨hmρ, hvρ⟩ := (hagrees ρ).1 hρ
      exact hopened.solves.2 (hrun he) ((hsolves ρ).2 ⟨hvρ, hsound (hexact he) ρ hmρ⟩)

/-- With a level for every unknown and one more, elimination answers a linear system. -/
theorem solveWithin_linear (settings : Settings) (n : Nat) {s : System} (hlen : s.unknowns.length < n)
    (h : LinearSystem s) (hmoderate : Along Moderate s) :
    ∃ ms, solveWithin settings n s.equations s.unknowns = some ms ∧ Answer (Along Exact s) s ms := by
  induction n generalizing s with
  | zero => omega
  | succ n ih =>
    have hbits := hmoderate.self
    have hopened : Opened s.unknowns s.equations (openEquations? s.unknowns s.equations) := by
      refine opened_linear h.linear h.vars fun f hf => ?_
      refine simplify_of_coeffBits (h.linear f hf) (h.vars f hf) h.few fun t ht => ?_
      exact (hbits f hf t ht).trans (Nat.le_mul_of_pos_left _ two_pos)
    rw [solveWithin]
    cases hopen : openEquations? s.unknowns s.equations with
    | none =>
      refine ⟨[], rfl, .inconsistent fun ρ hρ => ?_⟩
      rw [hopen] at hopened
      cases hopened with
      | inconsistent hc hmem => exact hc (hρ _ hmem)
    | some fs =>
      rw [hopen] at hopened
      cases fs with
      | nil =>
        refine ⟨_, rfl, .solved (free_solved _) (fun ρ _ => free_agrees ρ _) fun he ρ _ => ?_⟩
        exact hopened.solves.2 he.self (by simp [Solves])
      | cons f fs =>
        obtain ⟨hmem, hm⟩ : f ∈ s.equations ∧ mentions s.unknowns f = true := by
          cases hopened with
          | consistent hkept hall => exact hkept f List.mem_cons_self
        have hkept : ∀ g ∈ fs, g ∈ s.equations := fun g hg => by
          cases hopened with
          | consistent hkept hall => exact (hkept g (List.mem_cons_of_mem _ hg)).1
        obtain ⟨v, x, hv, hpivot, hx, hxvars, hvalue⟩ :=
          affinePivot?_linear (h.linear f hmem) (h.vars f hmem) h.few (hbits f hmem) hm fs
        have hstep : Step s ⟨fs.map fun f => f.subst v x, s.unknowns.filter (· ≠ v)⟩ :=
          .eliminate hopen hpivot (List.mem_singleton_self x)
        have hfewer := (h.unknowns_perm hv).length_eq
        rw [List.length_cons] at hfewer
        obtain ⟨ms, hms, hanswer⟩ :=
          ih (s := ⟨fs.map fun f => f.subst v x, s.unknowns.filter (· ≠ v)⟩) (by dsimp only; omega)
            (h.eliminated hkept hx hxvars) (hmoderate.step hstep)
        refine ⟨ms.map fun m => m.extend v x, ?_, ?_⟩
        · dsimp only
          rw [hpivot]
          dsimp only
          rw [branches?_singleton, hms, Option.map_some]
        · exact hanswer.extend (fun he => he.step hstep) h hopened Along.self hv hx hxvars hvalue

/-- Elimination answers every linear system, with at most one solved form, and loses no solution: at every rational
solution the values of the unknowns are those of the solved form. Each value mentions only unknowns that stand for
themselves. No system on the way may have a coefficient whose size comes near the limit for powers. -/
theorem solve?_linear (settings : Settings) {fs : List Expr} {unknowns : List String} (hnodup : unknowns.Nodup)
    (hfew : unknowns.length ≤ 12) (hlinear : ∀ f ∈ fs, Linear f)
    (hvars : ∀ f ∈ fs, ∀ v ∈ f.freeVars, v ∈ unknowns) (hmoderate : Along Moderate ⟨fs, unknowns⟩) :
    ∃ ms, solve? settings fs unknowns = some ms ∧ ms.length ≤ 1 ∧
      (∀ ρ, (∀ f ∈ fs, valueAt ρ f = 0) → ∃ m, ms = [m] ∧
        ∀ v ∈ unknowns, ∃ x, m.find? v = some x ∧ DefinedAt ρ x ∧ valueAt ρ x = ρ v) ∧
      ∀ m ∈ ms, ∀ v ∈ unknowns, ∃ x, m.find? v = some x ∧
        ∀ w ∈ x.freeVars, w ∈ unknowns ∧ m.find? w = some (.var w) := by
  have hsystem : LinearSystem ⟨fs, unknowns⟩ :=
    ⟨hnodup, hfew, hlinear, fun f hf => forall_mem_freeVars.1 (hvars f hf)⟩
  have hlen : unknowns.length < levels := Nat.lt_of_le_of_lt hfew (by decide)
  obtain ⟨ms, hms, hanswer⟩ := solveWithin_linear settings levels hlen hsystem hmoderate
  refine ⟨ms, hms, ?_⟩
  cases hanswer with
  | inconsistent hnone => exact ⟨Nat.zero_le 1, fun ρ hρ => absurd hρ (hnone ρ), by simp⟩
  | @solved m hm hcomplete hsound =>
    have hkeys : (m.map (·.1)).Nodup := hm.names.nodup_iff.2 hnodup
    have hfind : ∀ v ∈ unknowns, ∃ x, m.find? v = some x ∧ (v, x) ∈ m := fun v hv => by
      obtain ⟨b, hb, rfl⟩ := List.mem_map.1 (hm.names.mem_iff.2 hv)
      exact ⟨b.2, (find?_eq_some hkeys).2 hb, hb⟩
    refine ⟨le_rfl, fun ρ hρ => ⟨m, rfl, fun v hv => ?_⟩, ?_⟩
    · obtain ⟨x, hx, hmem⟩ := hfind v hv
      exact ⟨x, hx, hm.entire _ hmem ρ, hcomplete ρ hρ _ hmem⟩
    · intro m' hm' v hv
      obtain rfl := List.mem_singleton.1 hm'
      obtain ⟨x, hx, hmem⟩ := hfind v hv
      refine ⟨x, hx, fun w hw => ?_⟩
      have hfree := forall_mem_freeVars.2 (hm.free _ hmem) w hw
      exact ⟨hm.names.mem_iff.1 (List.mem_map_of_mem hfree), (find?_eq_some hkeys).2 hfree⟩

/-! ### A system of two equations -/

/-- There is at most one elimination of a pivot with a single value. -/
theorem Step.unique {s t : System} {fs gs : List Expr} {v : String} {x : Expr}
    (hopen : openEquations? s.unknowns s.equations = some fs)
    (hpivot : affinePivot? s.unknowns fs = some ⟨v, [x], gs⟩) (h : Step s t) :
    t = ⟨gs.map fun f => f.subst v x, s.unknowns.filter (· ≠ v)⟩ := by
  cases h with
  | eliminate hopen' hpivot' hx' =>
    obtain rfl := Option.some.inj (hopen.symm.trans hopen')
    obtain rfl := Option.some.inj (hpivot.symm.trans hpivot')
    rw [List.mem_singleton.1 hx']

theorem along_of_step {P : System → Prop} {s u : System} (hs : P s) (hstep : ∀ t, Step s t → t = u)
    (hu : Along P u) : Along P s := by
  intro t ht
  rcases Relation.ReflTransGen.cases_head ht with rfl | ⟨t', hst, ht⟩
  · exact hs
  · exact hu t (hstep t' hst ▸ ht)

theorem along_nil {P : System → Prop} {unknowns : List String} (h : P ⟨[], unknowns⟩) : Along P ⟨[], unknowns⟩ := by
  intro t ht
  rcases Relation.ReflTransGen.cases_head ht with rfl | ⟨u, hu, -⟩
  · exact h
  · cases hu with
    | eliminate hopen hpivot hx =>
      obtain rfl := Option.some.inj hopen
      cases hpivot

/-- The equations `x + y = 3` and `x - y = 1`. -/
def twoLines : List Expr :=
  [add [var "x", var "y", rat (-3)], add [var "x", mul [rat (-1), var "y"], rat (-1)]]

theorem twoLines_linear : ∀ f ∈ twoLines, Linear f := by
  have hfirst : sum [var "x", var "y", rat (-3)] = add [var "x", var "y", rat (-3)] := by cbv
  have hsecond : sum [var "x", -var "y", rat (-1)] = add [var "x", mul [rat (-1), var "y"], rat (-1)] := by cbv
  refine List.forall_mem_cons.2 ⟨hfirst ▸ sum_linear ?_, List.forall_mem_singleton.2 (hsecond ▸ sum_linear ?_)⟩
  · simp [linear_var, linear_rat]
  · simp [linear_var, linear_rat, neg_linear]

/-- The systems on the way of the two lines. -/
theorem along_twoLines {P : System → Prop} (hlines : P ⟨twoLines, ["x", "y"]⟩)
    (hrest : P ⟨[add [mul [rat (-2), var "y"], rat 2]], ["y"]⟩) (hdone : P ⟨[], []⟩) :
    Along P ⟨twoLines, ["x", "y"]⟩ := by
  have hopen : openEquations? ["x", "y"] twoLines = some twoLines := by cbv
  have hpivot : affinePivot? ["x", "y"] twoLines = some ⟨"x", [add [mul [rat (-1), var "y"], rat 3]],
      [add [var "x", mul [rat (-1), var "y"], rat (-1)]]⟩ := by
    cbv
  have hsubst : (add [var "x", mul [rat (-1), var "y"], rat (-1)]).subst "x"
      (add [mul [rat (-1), var "y"], rat 3]) = add [mul [rat (-2), var "y"], rat 2] := by
    cbv
  have hopen' : openEquations? ["y"] [add [mul [rat (-2), var "y"], rat 2]] =
      some [add [mul [rat (-2), var "y"], rat 2]] := by
    cbv
  have hpivot' : affinePivot? ["y"] [add [mul [rat (-2), var "y"], rat 2]] = some ⟨"y", [rat 1], []⟩ := by
    cbv
  refine along_of_step hlines (fun t => Step.unique hopen hpivot) ?_
  rw [List.map_singleton, hsubst]
  exact along_of_step hrest (fun t => Step.unique hopen' hpivot') (along_nil hdone)

theorem moderate_twoLines : Along Moderate ⟨twoLines, ["x", "y"]⟩ := by
  refine along_twoLines ?_ ?_ ?_ <;> unfold Moderate CoeffBits <;> decide

/-- The two lines meet where `x` is two and `y` is one. -/
theorem solve?_linear_two_lines : ∃ ms, solve? .default twoLines ["x", "y"] = some ms ∧
    ∃ m, ms = [m] ∧ ∀ v ∈ ["x", "y"], ∃ z, m.find? v = some z ∧
      valueAt (fun w => if w = "x" then 2 else 1) z = if v = "x" then 2 else 1 := by
  obtain ⟨ms, hms, -, hcomplete, -⟩ := solve?_linear .default (by decide) (by decide) twoLines_linear
    (by decide) moderate_twoLines
  obtain ⟨m, hm, hvalues⟩ := hcomplete (fun w => if w = "x" then 2 else 1)
    (by simp [twoLines, Reading.ofVars]; norm_num)
  refine ⟨ms, hms, m, hm, fun v hv => ?_⟩
  obtain ⟨z, hz, -, hvalue⟩ := hvalues v hv
  exact ⟨z, hz, hvalue⟩

end SymbolicSolver.Elimination
