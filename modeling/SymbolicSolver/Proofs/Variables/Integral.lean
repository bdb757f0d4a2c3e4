import SymbolicSolver.Proofs.Calculus.Variables
import SymbolicSolver.Proofs.Variables.Substitution

/-!
# Variables of antiderivatives

An antiderivative has no variables but those of the integrand and the variable of integration. The table, the integrals
of rational functions and integration by parts build it from these. A change of variable integrates in a new variable
and puts the inner expression in its place afterwards, so the new variable is gone again on every level.
-/

namespace SymbolicSolver.Expr

/-! ## Rules that build an antiderivative -/

namespace Closed

variable {P : Expr → Prop} (hP : Closed P) {name : String} {x u a y : Expr}

include hP

theorem slope? (hu : P u) (h : slope? u name = some a) : P a := by
  unfold Expr.slope? at h
  split at h
  · rename_i c d hcs
    obtain rfl := Option.some.inj (Option.ite_none_left_eq_some.1 h).2
    exact (hP.inherited.coefficients? hu hcs _ (by simp)).1
  · cases h

theorem funcIntegral? {f : Func} (hu : P u) (h : funcIntegral? f u = some y) : P y := by
  have happly (f : Func) : P (Expr.apply f u) := hP.apply f hu
  have hlog {x : Expr} (hx : P x) : P (Expr.apply .log x) := hP.apply .log hx
  have hhalf : P half := hP.rat _
  have hsquare : P (Expr.power u (int 2)) := hP.power hu (hP.rat _)
  have hroot : P (Expr.sqrt (one - Expr.power u (int 2))) := hP.sqrt (hP.minus (hP.rat 1) hsquare)
  have hlast : P (half * Expr.apply .log (Expr.power u (int 2) + one)) :=
    hP.times hhalf (hlog (hP.plus hsquare (hP.rat 1)))
  cases f <;> simp only [Expr.funcIntegral?, Option.some.injEq, reduceCtorEq] at h <;> subst h
  case sin => exact hP.neg (happly _)
  case cos => exact happly _
  case tan => exact hP.neg (hlog (happly _))
  case cot => exact hlog (happly _)
  case sec => exact hlog (hP.plus (happly _) (happly _))
  case csc => exact hP.neg (hlog (hP.plus (happly _) (happly _)))
  case sinh => exact happly _
  case cosh => exact happly _
  case tanh => exact hlog (happly _)
  case log => exact hP.minus (hP.times hu (happly _)) hu
  case asin => exact hP.plus (hP.times hu (happly _)) hroot
  case acos => exact hP.minus (hP.times hu (happly _)) hroot
  case atan => exact hP.minus (hP.times hu (happly _)) hlast
  case acot => exact hP.plus (hP.times hu (happly _)) hlast

theorem circularPowerIntegral? {f : Func} {n : Int} (hu : P u) (ha : P a) (hx : P x)
    (h : circularPowerIntegral? f n u a x = some y) : P y := by
  have htan : P (Expr.apply .tan u / a) := hP.quotient (hP.apply _ hu) ha
  have hcot : P (-Expr.apply .cot u / a) := hP.quotient (hP.neg (hP.apply _ hu)) ha
  have hhalf : P (half * x) := hP.times (hP.rat _) hx
  have hdouble : P (Expr.apply .sin (int 2 * u) / (int 4 * a)) :=
    hP.quotient (hP.apply _ (hP.times (hP.rat _) hu)) (hP.times (hP.rat _) ha)
  unfold Expr.circularPowerIntegral? at h
  dsimp only at h
  split at h
  · exact Option.some.inj h ▸ hP.minus hhalf hdouble
  · exact Option.some.inj h ▸ hP.plus hhalf hdouble
  · exact Option.some.inj h ▸ hP.minus htan hx
  · exact Option.some.inj h ▸ hP.minus hcot hx
  · exact Option.some.inj h ▸ htan
  · exact Option.some.inj h ▸ htan
  · exact Option.some.inj h ▸ hcot
  · exact Option.some.inj h ▸ hcot
  · obtain ⟨w, hw, rfl⟩ := Option.map_eq_some_iff.1 h
    exact hP.quotient (hP.funcIntegral? hu hw) ha
  · obtain ⟨w, hw, rfl⟩ := Option.map_eq_some_iff.1 h
    exact hP.quotient (hP.funcIntegral? hu hw) ha
  · cases h

variable (hname : P (.var name))

include hname

theorem circularPower? (hx : P x) (h : circularPower? x name = some y) : P y := by
  unfold Expr.circularPower? at h
  split at h
  · obtain ⟨a, ha, h⟩ := Option.bind_eq_some_iff.1 h
    obtain ⟨k, -, h⟩ := Option.bind_eq_some_iff.1 h
    have hu := hP.arg (hP.pow hx).1
    exact hP.circularPowerIntegral? hu (hP.slope? hu ha) hname h
  · cases h

theorem basicIntegral? (hx : P x) (h : basicIntegral? x name = some y) : P y := by
  unfold Expr.basicIntegral? at h
  split at h
  · exact Option.some.inj h ▸ hP.times (hP.rat _) (hP.power hname (hP.rat _))
  · rename_i b n
    obtain ⟨hb, hn⟩ := hP.pow hx
    split at h
    · obtain ⟨a, ha, rfl⟩ := Option.map_eq_some_iff.1 h
      have hslope := hP.slope? hb ha
      have hnext : P (n + one) := hP.plus hn (hP.rat 1)
      split
      · exact hP.quotient (hP.apply _ hb) hslope
      · exact hP.quotient (hP.power hb hnext) (hP.times hnext hslope)
    · obtain ⟨-, h⟩ := Option.ite_none_right_eq_some.1 h
      obtain ⟨a, ha, rfl⟩ := Option.map_eq_some_iff.1 h
      exact hP.quotient hx (hP.times (hP.slope? hn ha) (hP.apply _ hb))
  · obtain ⟨a, ha, h⟩ := Option.bind_eq_some_iff.1 h
    obtain ⟨w, hw, rfl⟩ := Option.map_eq_some_iff.1 h
    have hu := hP.arg hx
    exact hP.quotient (hP.funcIntegral? hu hw) (hP.slope? hu ha)
  · cases h

theorem tableIntegral? (hx : P x) (h : tableIntegral? x name = some y) : P y := by
  rcases Option.or_eq_some_iff.1 h with h | ⟨-, h⟩
  · exact hP.circularPower? hname hx h
  · exact hP.basicIntegral? hname hx h

/-! ### Rational functions -/

theorem integralOfPart (r : Rat) (part : Nat × Rat) : P (integralOfPart name r part) := by
  have hbase : P (.var name - .rat r) := hP.minus hname (hP.rat r)
  unfold Expr.integralOfPart
  dsimp only
  split
  · exact hP.times (hP.rat _) (hP.apply _ hbase)
  · exact hP.quotient (hP.times (hP.rat _) (hP.power hbase (hP.rat _))) (hP.rat _)

theorem integralOfQuadratic? {b c : Rat} {q : RatPoly} (h : integralOfQuadratic? name b c q = some y) : P y := by
  have hint (n : Int) : P (int n) := hP.rat _
  have hp : P (.rat (q.coeff 1)) := hP.rat _
  have hs : P (.rat (q.coeff 0)) := hP.rat _
  have htrinomial := hP.plus (hP.plus (hP.power hname (hint 2)) (hP.times hp hname)) hs
  have hlog := hP.times (hP.quotient (hP.rat b) (hint 2)) (hP.apply .log htrinomial)
  have hk := hP.minus (hP.rat c) (hP.quotient (hP.times (hP.rat b) hp) (hint 2))
  have hdelta := hP.minus (hP.times (hint 4) hs) (hP.times hp hp)
  have hlin := hP.plus (hP.times (hint 2) hname) hp
  have hw := hP.sqrt hdelta
  have hw' := hP.sqrt (hP.neg hdelta)
  simp only [Expr.integralOfQuadratic?] at h
  split at h
  · exact Option.some.inj h ▸
      hP.plus hlog (hP.times (hP.quotient (hP.times (hint 2) hk) hw) (hP.apply .atan (hP.quotient hlin hw)))
  · exact Option.some.inj h ▸ hP.plus hlog (hP.times (hP.quotient hk hw')
      (hP.apply .log (hP.quotient (hP.minus hlin hw') (hP.plus hlin hw'))))
  · cases h

theorem integralOfProper? {r d : RatPoly} (h : integralOfProper? r d name = some y) : P y := by
  have hpieces (parts : List (Rat × Nat × Rat)) : ∀ t ∈ parts.map fun p => Expr.integralOfPart name p.1 p.2, P t := by
    intro t ht
    obtain ⟨part, -, rfl⟩ := List.mem_map.1 ht
    exact hP.integralOfPart hname _ _
  simp only [Expr.integralOfProper?] at h
  split at h
  · exact Option.some.inj h ▸ hP.sum (hpieces _)
  · obtain ⟨last, hlast, rfl⟩ := Option.map_eq_some_iff.1 h
    exact hP.sum (List.forall_mem_append.2 ⟨hpieces _, by simpa using hP.integralOfQuadratic? hname hlast⟩)
  · cases h

theorem integralOfRational? (h : integralOfRational? x name = some y) : P y := by
  have hwhole (q : RatPoly) : P (ofRatPoly q.integral name) := hP.inherited.ofRatPoly hname _
  simp only [Expr.integralOfRational?] at h
  split at h
  · obtain ⟨-, h⟩ := Option.ite_none_left_eq_some.1 h
    split at h
    · exact Option.some.inj h ▸ hP.sum (by simpa using hwhole _)
    · obtain ⟨proper, hproper, rfl⟩ := Option.map_eq_some_iff.1 h
      exact hP.sum (by simpa using ⟨hwhole _, hP.integralOfProper? hname hproper⟩)
  · cases h

end Closed

/-! ## Rules that integrate again -/

/-- Answers hold no variables but those of the question and the variable that it is about. -/
def KeepsVars (rule : Expr → String → Option Expr) : Prop :=
  ∀ ⦃x name y⦄, rule x name = some y → ∀ ⦃p : String → Prop⦄, VarsIn p x → p name → VarsIn p y

section Rules

variable {p : String → Prop} {deeper : Expr → String → Option Expr} {x u g y : Expr} {name fresh : String}

variable (hdeeper : KeepsVars deeper)

include hdeeper

theorem varsIn_bySubstitution? (hx : VarsIn p x) (h : bySubstitution? deeper x name fresh = some y) : VarsIn p y := by
  obtain ⟨u, hmem, h⟩ := List.exists_of_findSome?_eq_some h
  obtain ⟨g, hg, h⟩ := Option.bind_eq_some_iff.1 h
  obtain ⟨F, hF, rfl⟩ := Option.map_eq_some_iff.1 h
  have hu : VarsIn p u := hx.subtree u (mem_innerExprs hmem).1
  have hinner : VarsIn (fun s => s = fresh ∨ p s) F := hdeeper hF (varsIn_inTermsOf? hx hu hg) (.inl rfl)
  exact hinner.subst hu fun v hv hne => hv.resolve_left hne

theorem varsIn_byParts? (hx : VarsIn p x) (hname : p name) (h : byParts? deeper x name = some y) : VarsIn p y := by
  obtain ⟨-, h⟩ := Option.ite_none_left_eq_some.1 h
  obtain ⟨s, hs, h⟩ := List.exists_of_findSome?_eq_some h
  obtain ⟨v, hv, h⟩ := Option.bind_eq_some_iff.1 h
  obtain ⟨w, hw, rfl⟩ := Option.map_eq_some_iff.1 h
  have hsplit : s ∈ splits x.factors := by
    rcases List.mem_append.1 hs with hs | hs
    · exact List.mem_of_mem_filter hs
    · exact List.mem_of_mem_filter hs
  obtain ⟨hu, hothers⟩ := Inherited.splits (closed_varsIn.factors hx) hsplit
  have hfirst : VarsIn p v := hdeeper hv (closed_varsIn.product hothers) hname
  have hrest : VarsIn p (derivative name s.2.1 * v).simplify :=
    closed_varsIn.inherited.simplify (closed_varsIn.times (closed_varsIn.derivative hu) hfirst)
  exact closed_varsIn.minus (closed_varsIn.times hu hfirst) (hdeeper hw hrest hname)

theorem varsIn_integralByRules? (hx : VarsIn p x) (hname : p name)
    (h : integralByRules? deeper fresh x name = some y) : VarsIn p y := by
  simp only [integralByRules?, Option.or_eq_some_iff] at h
  rcases h with h | ⟨-, h | ⟨-, h | ⟨-, h | ⟨-, h⟩⟩⟩⟩
  · exact closed_varsIn.tableIntegral? hname hx h
  · exact closed_varsIn.integralOfRational? hname h
  · exact varsIn_bySubstitution? hdeeper hx h
  · exact varsIn_byParts? hdeeper hx hname h
  · exact hdeeper (Option.ite_none_left_eq_some.1 h).2 (closed_varsIn.inherited.expand hx) hname

end Rules

/-- Linearity takes an integrand apart and builds the antiderivative from those of the parts. -/
theorem varsIn_integralByLinearity? {p : String → Prop} {rule : Expr → Option Expr} {name : String} (hname : p name)
    (hrule : ∀ x y, rule x = some y → VarsIn p x → VarsIn p y) (n : Nat) {x y : Expr} (hx : VarsIn p x)
    (h : integralByLinearity? rule name n x = some y) : VarsIn p y := by
  induction n generalizing x y with
  | zero => cases h
  | succ n ih =>
    unfold integralByLinearity? at h
    obtain ⟨-, h⟩ := Option.ite_none_left_eq_some.1 h
    split at h
    · exact Option.some.inj h ▸ closed_varsIn.times hx hname
    · split at h
      · obtain ⟨ys, hys, rfl⟩ := Option.map_eq_some_iff.1 h
        refine closed_varsIn.sum fun z hz => ?_
        obtain ⟨t, ht, htz⟩ := exists_mem_of_forall₂ (forall₂_of_mapM_eq_some hys) hz
        exact ih (closed_varsIn.add hx t ht) htz
      · dsimp only at h
        split at h
        · exact hrule _ _ h hx
        · obtain ⟨F, hF, rfl⟩ := Option.map_eq_some_iff.1 h
          have hfactors {test : Expr → Bool} {fs : List Expr} (hfs : VarsIn p (mul fs)) :
              VarsIn p (product (fs.filter test)) :=
            closed_varsIn.product fun f hf => closed_varsIn.mul hfs f (List.mem_of_mem_filter hf)
          exact closed_varsIn.times (hfactors hx) (ih (hfactors hx) hF)
      · exact hrule _ _ h hx

theorem keepsVars_integralAt? (n level : Nat) : KeepsVars (integralAt? n level) := by
  induction n generalizing level with
  | zero => exact fun x name y h => nomatch h
  | succ n ih =>
    intro x name y h p hx hname
    exact varsIn_integralByLinearity? hname
      (fun _ _ h hx => varsIn_integralByRules? (ih (level + 1)) hx hname h) _ hx h

/-- An antiderivative has no variables but those of the integrand and the variable of integration. -/
theorem keepsVars_integral? : KeepsVars integral? := keepsVars_integralAt? integralLevels 0

end SymbolicSolver.Expr
