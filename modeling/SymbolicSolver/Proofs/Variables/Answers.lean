import Mathlib
import SymbolicSolver.Equation.Solve
import SymbolicSolver.Proofs.Equation.Real
import SymbolicSolver.Proofs.Variables.Integral
import SymbolicSolver.Proofs.Variables.Roots

/-!
# No internal variable leaks

Antiderivatives, exact roots and limits have no variables but those of the question, whatever the question is: the
variables that the searches introduce for themselves are gone from every answer.
-/

namespace SymbolicSolver

open SymbolicSolver.Expr

/-! ## Tiers -/

/-- The exact roots that a tier answers have the property. -/
def ExactRoots (P : Expr → Prop) (answer : Option SolutionSet × Verdict) : Prop :=
  ∀ roots, answer.1 = some (.exact roots) → ∀ r ∈ roots, P r

variable {P : Expr → Prop} {q : String → Prop} {p : Problem}

theorem exactRoots_none (v : Verdict) : ExactRoots P (none, v) := fun _ h => nomatch h

theorem exactRoots_exactOr {verdict before : Verdict} {roots : List Expr} (h : ∀ r ∈ roots, P r) :
    ExactRoots P (exactOr verdict before roots) := by
  unfold exactOr
  split
  · exact exactRoots_none _
  · intro rs hrs
    obtain rfl : roots = rs := by simpa using hrs
    exact h

theorem exactRoots_identityTier (v : Verdict) : ExactRoots P (identityTier p v) := by
  intro roots h
  unfold identityTier at h
  dsimp only at h
  split at h <;> cases h

theorem exactRoots_numericTier (v : Verdict) : ExactRoots P (numericTier p v) := by
  unfold numericTier
  split
  · exact exactRoots_none _
  · split
    · exact exactRoots_none _
    · exact fun roots h => nomatch h

section Tiers

variable (hf : VarsIn (fun s => s = p.unknown ∨ q s) p.f)

include hf

theorem exactRoots_realTier (v : Verdict) : ExactRoots (VarsIn q) (realTier p v) := by
  have hnum : VarsIn (fun s => s = p.unknown ∨ q s) p.f.toFraction.num.expand :=
    closed_varsIn.inherited.expand (closed_varsIn.inherited.toFraction hf).num
  unfold realTier
  split
  · exact exactRoots_none _
  · split
    · exact exactRoots_none _
    · dsimp only
      split
      · split
        · exact fun roots h => nomatch h
        · split
          · rename_i roots hroots
            exact exactRoots_exactOr fun r hr => closed_varsIn.polynomialRoots? hroots r (mem_of_mem_excludePoles hr)
          · exact exactRoots_none _
      · refine exactRoots_exactOr fun r hr => ?_
        have hr := Option.mem_toList.1 (mem_of_mem_excludePoles hr)
        unfold affineRoot? at hr
        split at hr
        · rename_i c0 c1 hcs
          have hcoeff : ∀ c ∈ [c0, c1], VarsIn q c := fun c hc => by
            obtain ⟨hc, hvar⟩ := closed_varsIn.inherited.coefficients? hnum hcs c hc
            exact hc.of_or hvar
          obtain ⟨h0, h1⟩ : VarsIn q c0 ∧ VarsIn q c1 := by simpa using hcoeff
          exact Option.some.inj hr ▸ closed_varsIn.inherited.simplify (closed_varsIn.quotient (closed_varsIn.neg h0) h1)
        · cases hr

theorem exactRoots_genericTier (v : Verdict) : ExactRoots (VarsIn q) (genericTier p v) := by
  unfold genericTier
  dsimp only
  split
  · refine exactRoots_exactOr fun r hr => ?_
    have hmem := List.mem_of_mem_filter ((mem_sortRoots _).1 hr)
    obtain ⟨root, hroot, rfl⟩ := List.mem_map.1 hmem
    exact closed_varsIn.inherited.simplify (dropsUnknown_isolate hroot hf)
  · exact exactRoots_none _

omit hf in
theorem exactRoots_firstAnswer? {ts : List Tier} (hts : ∀ t ∈ ts, ∀ v, ExactRoots (VarsIn q) (t p v)) (v : Verdict) :
    ExactRoots (VarsIn q) (firstAnswer? p ts v) := by
  induction ts generalizing v with
  | nil => exact exactRoots_none v
  | cons t ts ih =>
    obtain ⟨ht, hts⟩ := List.forall_mem_cons.1 hts
    have htier := ht v
    rw [firstAnswer?]
    split
    · rename_i heq
      exact heq ▸ htier
    · exact ih hts _

end Tiers

/-- The exact roots of an equation do not contain the unknown, and bring in no variable. -/
theorem varsIn_solveEquation {lhs rhs : Expr} {unknown : String} {settings : Settings} {roots : List Expr}
    (h : solveEquation lhs rhs unknown settings = .exact roots)
    (hl : VarsIn (fun s => s = unknown ∨ q s) lhs) (hr : VarsIn (fun s => s = unknown ∨ q s) rhs) :
    ∀ r ∈ roots, VarsIn q r := by
  have hf : VarsIn (fun s => s = unknown ∨ q s) (Problem.ofSides lhs rhs unknown settings).f :=
    closed_varsIn.inherited.simplify (closed_varsIn.minus hl hr)
  have htiers : ∀ t ∈ tiers.map (·.2), ∀ v, ExactRoots (VarsIn q) (t (.ofSides lhs rhs unknown settings) v) := by
    simp only [tiers, List.map_cons, List.map_nil, List.forall_mem_cons]
    exact ⟨exactRoots_identityTier, exactRoots_realTier hf, exactRoots_genericTier hf, exactRoots_numericTier,
      by simp⟩
  refine exactRoots_firstAnswer? htiers .none roots ?_
  unfold solveEquation at h
  cases hanswer : (firstAnswer? (Problem.ofSides lhs rhs unknown settings) (tiers.map (·.2)) .none).1 with
  | none =>
    rw [hanswer] at h
    cases h
  | some s =>
    rw [hanswer] at h
    exact congrArg some h

/-! ## Answers -/

/-- No variable of an antiderivative, of an exact root or of a limit is invented: it stands in the question, and it is
not the one that was solved for or taken to a point. -/
theorem answers_bring_in_no_variable :
    (∀ (x : Expr) (name : String) (F : Expr), integral? x name = some F →
      ∀ s ∈ F.freeVars, s ∈ x.freeVars ∨ s = name) ∧
    (∀ (lhs rhs : Expr) (unknown : String) (settings : Settings) (roots : List Expr),
      solveEquation lhs rhs unknown settings = .exact roots →
        ∀ r ∈ roots, r.hasVar unknown = false ∧ ∀ s ∈ r.freeVars, s ∈ lhs.freeVars ∨ s ∈ rhs.freeVars) ∧
    (∀ (x : Expr) (name : String) (point l : Expr), limit x name point = .ok l →
      ∀ s ∈ l.freeVars, s ∈ x.freeVars ∧ s ≠ name ∨ s ∈ point.freeVars) := by
  have hself (x : Expr) : VarsIn (· ∈ x.freeVars) x := forall_mem_freeVars.1 fun _ hs => hs
  refine ⟨fun x name F h => ?_, fun lhs rhs unknown settings roots h r hr => ?_, fun x name point l h => ?_⟩
  · exact forall_mem_freeVars.2 (keepsVars_integral? h ((hself x).mono fun _ => .inl) (.inr rfl))
  · constructor
    · refine (varsIn_ne_iff unknown r).1 (varsIn_solveEquation h ?_ ?_ r hr)
      · exact (varsIn_true lhs).mono fun s _ => eq_or_ne s unknown
      · exact (varsIn_true rhs).mono fun s _ => eq_or_ne s unknown
    · exact forall_mem_freeVars.2 (varsIn_solveEquation h ((hself lhs).mono fun _ hs => .inr (.inl hs))
        ((hself rhs).mono fun _ hs => .inr (.inr hs)) r hr)
  · refine forall_mem_freeVars.2 (varsIn_limit h ((hself x).mono fun s hs => ?_) ((hself point).mono fun _ => .inr))
    exact (eq_or_ne s name).imp_right fun hne => .inl ⟨hs, hne⟩

/-! ### A parameter in each answer -/

theorem integral?_scaledCosine : integral? (.mul [.var "a", .fn .cos (.var "x")]) "x" =
    some (.mul [.var "a", .fn .sin (.var "x")]) := by cbv

/-- The difference of the sides of `x = a`. -/
def shift : Expr := .add [.mul [rat (-1), .var "a"], .var "x"]

theorem solveEquation_shift : solveEquation (.var "x") (.var "a") "x" .default = .exact [.var "a"] := by
  have hf : (Problem.ofSides (.var "x") (.var "a") "x" .default).f = shift := by
    have hsub : Expr.var "x" - .var "a" = shift := by cbv
    have hsimplify : shift.simplify = shift := by cbv
    show (Expr.var "x" - .var "a").simplify = shift
    rw [hsub, hsimplify]
  have hunknown : (Problem.ofSides (.var "x") (.var "a") "x" .default).unknown = "x" := rfl
  have hnum : shift.toFraction.num.expand = shift := by cbv
  have hden : shift.toFraction.den = rat 1 := by cbv
  have hpoly : shift.ratPoly? "x" = none := by cbv
  have hcs : shift.coefficients? "x" = some [.mul [rat (-1), .var "a"], rat 1] := by cbv
  have hroot : (-Expr.mul [rat (-1), .var "a"] / rat 1).simplify = .var "a" := by cbv
  have hzero : shift.isZero = false := rfl
  have hvar : shift.hasVar "x" = true := by decide
  have houtside : shift.occursOutsideCircular "x" = true := by decide
  have hpole : (rat 1).hasVar "x" = false := rfl
  simp [solveEquation, firstAnswer?, tiers, identityTier, realTier, hf, hunknown, hzero, hvar, houtside, hnum, hpoly,
    affineRoot?, hcs, hroot, hden, excludePoles, hpole, exactOr]

/-- The limit of `1/x + a` at infinity is one of `_t0 + a` at zero. -/
theorem limit_reciprocalShift :
    limit (.add [.pow (.var "x") (rat (-1)), .var "a"]) "x" .infinity = .ok (.var "a") := by
  have hsubst : (Expr.add [.pow (.var "x") (rat (-1)), .var "a"]).subst "x" (int 1 / .var "_t0") =
      .add [.var "_t0", .var "a"] := by cbv
  have hinfinity : limitAt? 9 0 (.add [.pow (.var "x") (rat (-1)), .var "a"]) "x" .infinity =
      limitAt? 8 1 ((Expr.add [.pow (.var "x") (rat (-1)), .var "a"]).subst "x" (int 1 / .var "_t0")) "_t0" (rat 0) :=
    rfl
  have hzero : limitAt? 8 1 (.add [.var "_t0", .var "a"]) "_t0" (rat 0) = some (.var "a") := by
    have hvalue : ((Expr.add [.var "_t0", .var "a"]).subst "_t0" (rat 0)).defined? = some (.var "a") := by
      have hput : (Expr.add [.var "_t0", .var "a"]).subst "_t0" (rat 0) = .var "a" := by cbv
      rw [hput]
      rfl
    have hvar : (Expr.add [.var "_t0", .var "a"]).hasVar "_t0" = true := by decide
    rw [limitAt?]
    simp [hvar, infinitySign?, hvalue]
  rw [limit, limitLevels, hinfinity, hsubst, hzero]

/-- The parameter is the only variable of the answers. -/
theorem answers_bring_in_no_variable_parameter :
    (∀ s ∈ (Expr.mul [.var "a", .fn .sin (.var "x")]).freeVars,
      s ∈ (Expr.mul [.var "a", .fn .cos (.var "x")]).freeVars ∨ s = "x") ∧
    ((Expr.var "a").hasVar "x" = false ∧
      ∀ s ∈ (Expr.var "a").freeVars, s ∈ (Expr.var "x").freeVars ∨ s ∈ (Expr.var "a").freeVars) ∧
    (∀ s ∈ (Expr.var "a").freeVars,
      s ∈ (Expr.add [.pow (.var "x") (rat (-1)), .var "a"]).freeVars ∧ s ≠ "x" ∨ s ∈ Expr.infinity.freeVars) :=
  ⟨answers_bring_in_no_variable.1 _ _ _ integral?_scaledCosine,
    answers_bring_in_no_variable.2.1 _ _ _ _ _ solveEquation_shift _ (List.mem_singleton_self _),
    answers_bring_in_no_variable.2.2 _ _ _ _ limit_reciprocalShift⟩

end SymbolicSolver
