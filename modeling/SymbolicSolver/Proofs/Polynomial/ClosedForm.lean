import SymbolicSolver.Proofs.Number.Bits
import SymbolicSolver.Proofs.Polynomial.Coefficients
import SymbolicSolver.Proofs.Polynomial.Quadratic
import SymbolicSolver.Proofs.Simplify.Linear

/-!
# Exact roots of polynomials

Dividing by `x - r` loses no root but `r` and keeps the leading coefficient. What is found by trial is a root, so a
rational is a root of the polynomial if it was found or is a root of what is left; for that a closed form has every
rational root, or there is no answer.
-/

namespace SymbolicSolver

open Expr (deflateAll SignKnown NotNegative discriminant)

namespace RatPoly

/-! ## Division by a linear factor -/

theorem tailValues_cons (r c : Rat) (cs : List Rat) :
    tailValues r (c :: cs) = evalList r (c :: cs) :: tailValues r cs := by
  induction cs generalizing c with
  | nil => simp [tailValues, evalList]
  | cons d ds ih =>
    rw [tailValues, ih d]
    rfl

/-- The division of the values: the remainder is the value at `r`. -/
theorem evalList_tailValues (x r c : Rat) (cs : List Rat) :
    evalList x (c :: cs) = (x - r) * evalList x (tailValues r cs) + evalList r (c :: cs) := by
  induction cs generalizing c with
  | nil => simp [tailValues, evalList]
  | cons d ds ih =>
    have hd := ih d
    rw [tailValues_cons]
    simp only [evalList] at hd ⊢
    rw [hd]
    ring

theorem eval_deflate_add (p : RatPoly) (r x : Rat) : p.eval x = (x - r) * (p.deflate r).eval x + p.eval r := by
  rw [deflate, eval_ofList]
  unfold eval
  cases hp : p.coeffs with
  | nil => simp [evalList, tailValues]
  | cons c cs => rw [evalList_tailValues x r, List.tail_cons]

theorem eval_deflate {p : RatPoly} {r : Rat} (hr : p.eval r = 0) (x : Rat) :
    p.eval x = (x - r) * (p.deflate r).eval x := by
  rw [eval_deflate_add p r x, hr, add_zero]

theorem getLast?_tailValues (r : Rat) (cs : List Rat) : (tailValues r cs).getLast? = cs.getLast? := by
  induction cs with
  | nil => rfl
  | cons c cs ih =>
    rw [tailValues_cons]
    cases cs with
    | nil => simp [tailValues, evalList]
    | cons d ds =>
      rw [tailValues_cons] at ih ⊢
      rw [List.getLast?_cons_cons, ih, List.getLast?_cons_cons]

theorem stripZeros_eq {cs : List Rat} (h : cs.getLast? ≠ some 0) : stripZeros cs = cs := by
  induction cs with
  | nil => rfl
  | cons c cs ih =>
    cases cs with
    | nil => simpa [stripZeros] using h
    | cons d ds =>
      rw [List.getLast?_cons_cons] at h
      rw [stripZeros, ih h]

theorem lead_deflate {p : RatPoly} (h : 2 ≤ p.coeffs.length) (r : Rat) : (p.deflate r).lead = p.lead := by
  have hlast := p.lead_ne_zero
  match hp : p.coeffs with
  | [] => simp [hp] at h
  | [c] => simp [hp] at h
  | c :: d :: ds =>
    rw [hp, List.getLast?_cons_cons, ← getLast?_tailValues r] at hlast
    rw [lead, lead, deflate, hp, List.tail_cons]
    show (stripZeros _).getLast?.getD 0 = _
    rw [stripZeros_eq hlast, getLast?_tailValues, List.getLast?_cons_cons]

/-- Dividing out a root again and again loses no other root and keeps the leading coefficient. -/
theorem deflateAll_spec (r : Rat) (n : Nat) (p : RatPoly) :
    (deflateAll r n p).lead = p.lead ∧ ∀ x, x ≠ r → ((deflateAll r n p).eval x = 0 ↔ p.eval x = 0) := by
  induction n generalizing p with
  | zero => exact ⟨rfl, fun _ _ => Iff.rfl⟩
  | succ n ih =>
    rw [deflateAll]
    split
    · rename_i h
      simp only [Bool.and_eq_true, decide_eq_true_eq] at h
      obtain ⟨hlead, hroots⟩ := ih (p.deflate r)
      refine ⟨hlead.trans (lead_deflate h.1 r), fun x hx => (hroots x hx).trans ?_⟩
      rw [eval_deflate h.2 x, mul_eq_zero, or_iff_right (sub_ne_zero.2 hx)]
    · exact ⟨rfl, fun _ _ => Iff.rfl⟩

/-! ## Rational roots -/

theorem evalList_dropWhile {r : Rat} {cs : List Rat} (h : evalList r (cs.dropWhile (· = 0)) = 0) :
    evalList r cs = 0 := by
  induction cs with
  | nil => rfl
  | cons c cs ih =>
    by_cases hc : c = 0
    · rw [List.dropWhile_cons_of_pos (by simpa using hc)] at h
      rw [evalList, ih h, hc, zero_mul, add_zero]
    · rwa [List.dropWhile_cons_of_neg (by simpa using hc)] at h

/-- Only roots join those already found. -/
theorem testCandidates_root (cs : List Rat) (candidates : List Rat) {found : List Rat} {r : Rat}
    (h : r ∈ testCandidates cs found candidates) : r ∈ found ∨ evalList r cs = 0 := by
  unfold testCandidates at h
  induction candidates generalizing found with
  | nil => exact .inl h
  | cons c candidates ih =>
    rw [List.foldl_cons] at h
    rcases ih h with hout | hroot
    · split at hout
      · rename_i htest
        simp only [Bool.and_eq_true, decide_eq_true_eq] at htest
        rcases List.mem_append.1 hout with hfound | hnew
        · exact .inl hfound
        · exact .inr (List.mem_singleton.1 hnew ▸ htest.2)
      · exact .inl hout
    · exact .inr hroot

theorem eval_of_mem_rationalRoots {p : RatPoly} {r : Rat} (h : r ∈ p.rationalRoots) : p.eval r = 0 := by
  have hzeros : r ∈ (if p.coeff 0 = 0 then [0] else []) → p.eval r = 0 := by
    intro hr
    split at hr
    · rename_i h0
      rw [List.mem_singleton.1 hr, eval]
      unfold coeff at h0
      cases hp : p.coeffs with
      | nil => rfl
      | cons c cs =>
        rw [hp, List.getD_cons_zero] at h0
        rw [evalList, mul_zero, zero_add, h0]
    · simp at hr
  unfold rationalRoots at h
  split at h
  · simp at h
  · dsimp only at h
    split at h
    · exact hzeros h
    · split at h
      · exact hzeros h
      · rw [List.mem_mergeSort] at h
        rcases testCandidates_root _ _ h with hr | hr
        · exact hzeros hr
        · exact evalList_dropWhile hr

/-- What is left of a polynomial after its rational roots are divided out. -/
def residual (p : RatPoly) : RatPoly :=
  p.rationalRoots.foldl (fun q r => deflateAll r q.coeffs.length q) p

theorem residual_spec (p : RatPoly) :
    p.residual.lead = p.lead ∧ ∀ x, x ∉ p.rationalRoots → (p.residual.eval x = 0 ↔ p.eval x = 0) := by
  suffices hfold : ∀ (rs : List Rat) (q : RatPoly),
      (rs.foldl (fun q r => deflateAll r q.coeffs.length q) q).lead = q.lead ∧
        ∀ x, x ∉ rs → ((rs.foldl (fun q r => deflateAll r q.coeffs.length q) q).eval x = 0 ↔ q.eval x = 0) from
    hfold p.rationalRoots p
  intro rs
  induction rs with
  | nil => exact fun q => ⟨rfl, fun _ _ => Iff.rfl⟩
  | cons r rs ih =>
    intro q
    obtain ⟨hlead, hroots⟩ := ih (deflateAll r q.coeffs.length q)
    obtain ⟨hlead', hroots'⟩ := deflateAll_spec r q.coeffs.length q
    refine ⟨hlead.trans hlead', fun x hx => ?_⟩
    rw [List.mem_cons, not_or] at hx
    exact (hroots x hx.2).trans (hroots' x hx.1)

/-! ## Closed forms -/

/-- The reciprocals of the leading coefficient and of its double are computed. -/
def LeadFits (p : RatPoly) : Prop := Rational.bits p.lead + 3 ≤ Expr.maxPowerBits

/-- The signs that the closed forms ask for are known: of a discriminant, and of the squares of the rational roots of a
biquadratic. -/
structure SignsKnown (q : RatPoly) : Prop where
  quadratic : q.degree? = some 2 → SignKnown (discriminant (q.coeff 2) (q.coeff 1) (q.coeff 0))
  biquadratic : q.degree? = some 4 → SignKnown (discriminant (q.coeff 4) (q.coeff 2) (q.coeff 0)) ∧
    ∀ x, q.eval x = 0 → NotNegative (x ^ 2)

theorem LeadFits.powerFits {p : RatPoly} (h : p.LeadFits) :
    Expr.powerFits p.lead (-1) = true ∧ Expr.powerFits (2 * p.lead) (-1) = true := by
  have hbits : Rational.bits (1 / 2) = 3 := by decide +kernel
  have hdouble := Rational.bits_div_le p.lead (1 / 2)
  have heq : p.lead / (1 / 2) = 2 * p.lead := by ring
  unfold LeadFits at h
  rw [heq, hbits] at hdouble
  exact ⟨Expr.powerFits_neg_one (by omega), Expr.powerFits_neg_one (by omega)⟩

end RatPoly

namespace Expr

theorem mem_dropRepeats {x : Expr} (xs : List Expr) : x ∈ dropRepeats xs ↔ x ∈ xs := by
  induction xs with
  | nil => simp [dropRepeats]
  | cons y ys ih =>
    rw [dropRepeats, List.mem_cons, ← ih]
    split
    · rename_i hnil
      simp [hnil]
    · rename_i z zs hcons
      rw [hcons]
      split
      · rename_i hyz
        simp [hyz]
      · simp

theorem mem_sortRoots {x : Expr} (xs : List Expr) : x ∈ sortRoots xs ↔ x ∈ xs := by
  simp [sortRoots, mem_dropRepeats]

/-- The closed forms give the rational roots and no other rational. -/
theorem mem_residualRoots? {q : RatPoly} (hlead : q.lead ≠ 0) (hfits : q.LeadFits) (hsigns : q.SignsKnown)
    {roots : List Expr} (h : residualRoots? q false = some roots) (x : Rat) :
    rat x ∈ roots ↔ q.eval x = 0 := by
  obtain ⟨hfits1, hfits2⟩ := hfits.powerFits
  obtain ⟨hquadratic, hbiquadratic⟩ := hsigns
  unfold RatPoly.lead at hlead hfits1 hfits2
  simp only [residualRoots?, RatPoly.degree?, RatPoly.coeff, RatPoly.eval] at h hquadratic hbiquadratic ⊢
  -- the closed forms go by the number of coefficients
  rcases hq : q.coeffs with _ | ⟨c0, _ | ⟨c1, _ | ⟨c2, _ | ⟨c3, _ | ⟨c4, _ | ⟨c5, cs⟩⟩⟩⟩⟩⟩
  · simp [hq] at hlead
  · simp only [hq, List.length_nil, Option.some.injEq] at h
    simp only [hq, List.getLast?_singleton, Option.getD_some] at hlead
    rw [← h]
    simpa [RatPoly.evalList] using hlead
  · simp only [hq, List.length_cons, List.length_nil, List.getD_cons_zero, List.getD_cons_succ, Option.some.injEq] at h
    simp only [hq, List.getLast?_cons_cons, List.getLast?_singleton, Option.getD_some] at hlead hfits1
    rw [← h, neg_rat, rat_div_rat _ hlead hfits1, List.mem_singleton, Expr.rat.injEq, eq_div_iff hlead]
    simp only [RatPoly.evalList, zero_mul, zero_add]
    rw [eq_neg_iff_add_eq_zero, mul_comm]
  · simp only [hq, List.length_cons, List.length_nil, List.getD_cons_zero, List.getD_cons_succ, Option.some.injEq,
      forall_const] at h hquadratic
    simp only [hq, List.getLast?_cons_cons, List.getLast?_singleton, Option.getD_some] at hlead hfits2
    have hvalue : RatPoly.evalList x [c0, c1, c2] = c2 * x ^ 2 + c1 * x + c0 := by
      simp only [RatPoly.evalList]
      ring
    rw [← h, hvalue]
    constructor
    · intro hx
      rcases quadraticRoots_spec hlead hfits2 hquadratic hx with hsurd | ⟨z, hz, hroot⟩
      · cases hsurd.rat?_eq_none
      · rwa [Expr.rat.inj hz]
    · exact mem_quadraticRoots hlead hfits2 hquadratic
  · simp [hq] at h
  · simp only [hq, List.length_cons, List.length_nil, List.getD_cons_zero, List.getD_cons_succ,
      Option.ite_none_right_eq_some, Option.some.injEq, forall_const] at h hbiquadratic
    simp only [hq, List.getLast?_cons_cons, List.getLast?_singleton, Option.getD_some] at hlead hfits2
    obtain ⟨⟨rfl, rfl⟩, h⟩ := h
    have hvalue : RatPoly.evalList x [c0, 0, c2, 0, c4] = c4 * (x ^ 2) ^ 2 + c2 * x ^ 2 + c0 := by
      simp only [RatPoly.evalList]
      ring
    rw [← h, hvalue]
    refine ⟨biquadraticRoots_spec hlead hfits2 hbiquadratic.1, fun hx => ?_⟩
    exact mem_biquadraticRoots hlead hfits2 hbiquadratic.1 (hbiquadratic.2 x (hvalue.trans hx)) hx
  · simp [hq] at h

/-- A rational is among the exact roots of a polynomial exactly if it is a root. -/
theorem mem_polynomialRoots? {p : RatPoly} (hp : p.isZero = false) (hfits : p.LeadFits)
    (hsigns : p.residual.SignsKnown) {roots : List Expr} (h : polynomialRoots? p false = some roots) (x : Rat) :
    rat x ∈ roots ↔ p.eval x = 0 := by
  obtain ⟨-, hlead⟩ := RatPoly.getLast?_coeffs hp
  obtain ⟨hsame, hroots⟩ := p.residual_spec
  unfold polynomialRoots? at h
  split at h
  · cases h
  · rename_i hdegree
    obtain rfl := Option.some.inj h
    match hcs : p.coeffs with
    | [] => simp [RatPoly.degree?, hcs] at hdegree
    | [c] =>
      rw [RatPoly.lead, hcs] at hlead
      simpa [RatPoly.eval, hcs, RatPoly.evalList] using hlead
    | c :: d :: cs => simp [RatPoly.degree?, hcs] at hdegree
  · obtain ⟨rest, hrest, rfl⟩ := Option.map_eq_some_iff.1 h
    have hmem := mem_residualRoots? (hsame ▸ hlead) (by rwa [RatPoly.LeadFits, hsame]) hsigns hrest x
    rw [mem_sortRoots, List.mem_append, hmem]
    have hfound : rat x ∈ p.rationalRoots.map rat ↔ x ∈ p.rationalRoots := by simp
    rw [hfound]
    by_cases hx : x ∈ p.rationalRoots
    · exact iff_of_true (.inl hx) (RatPoly.eval_of_mem_rationalRoots hx)
    · rw [or_iff_right hx, hroots x hx]

end Expr

end SymbolicSolver
