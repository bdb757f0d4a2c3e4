import SymbolicSolver.Calculus.Limit
import SymbolicSolver.Proofs.Calculus.Variables
import SymbolicSolver.Proofs.Variables.Substitution

/-!
# Variables of limits

A limit has no variables but those of the point and those of the expression other than the one that tends to it. The
value at the point has that one replaced, the limits of parts are put together from limits, and a limit at infinity is
one at zero in a new variable, which that limit in turn does not have.
-/

namespace SymbolicSolver.Expr

variable {p : String → Prop} {name : String} {x y n d point l : Expr}

/-- What does not contain a variable has its variables among the others. -/
theorem VarsIn.of_or (hx : VarsIn (fun s => s = name ∨ p s) x) (h : x.hasVar name = false) : VarsIn p x := by
  refine varsIn_iff.2 fun s hs => (varsIn_iff.1 hx s hs).resolve_left fun heq => ?_
  rw [heq, h] at hs
  cases hs

theorem eq_of_defined? (h : x.defined? = some y) : y = x :=
  (Option.some.inj (Option.ite_none_right_eq_some.1 h).2).symm

/-- A rule under which the variable that tends to the point is gone. -/
def DropsVar (rule : LimitRule) : Prop :=
  ∀ ⦃x name point l⦄, rule x name point = some l → ∀ ⦃p : String → Prop⦄,
    VarsIn (fun s => s = name ∨ p s) x → VarsIn p point → VarsIn p l

/-! ## Numeric estimates -/

theorem varsIn_infinityOf (positive : Bool) : VarsIn p (infinityOf positive) := by
  unfold infinityOf
  split
  · trivial
  · exact hereditary_varsIn.negInfinity

theorem varsIn_nearbyRational? {v : Float} {qs : List Nat} (h : nearbyRational? v qs = some y) : VarsIn p y := by
  induction qs with
  | nil => cases h
  | cons q qs ih =>
    simp only [nearbyRational?] at h
    split at h
    · exact Option.some.inj h ▸ trivial
    · exact ih h

theorem varsIn_numericLimit? (h : numericLimit? x name point = some l) : VarsIn p l := by
  obtain ⟨x0, -, h⟩ := Option.bind_eq_some_iff.1 h
  split at h
  · unfold estimate? at h
    split at h
    · exact Option.some.inj h ▸ varsIn_infinityOf _
    · exact varsIn_nearbyRational? (Option.ite_none_right_eq_some.1 (Option.ite_none_left_eq_some.1 h).2).2
  · cases h

/-! ## Rules -/

section Rules

variable {deeper : LimitRule} (hdeeper : DropsVar deeper)

theorem varsIn_combineLimits? {limit : Expr → Option Expr} {xs : List Expr} {build : List Expr → Expr}
    (hlimit : ∀ x ∈ xs, ∀ l, limit x = some l → VarsIn p l)
    (hbuild : ∀ {ls : List Expr}, (∀ l ∈ ls, VarsIn p l) → VarsIn p (build ls))
    (h : combineLimits? limit xs build = some l) : VarsIn p l := by
  obtain ⟨ls, hls, h⟩ := Option.bind_eq_some_iff.1 h
  refine eq_of_defined? h ▸ hbuild fun l hl => ?_
  obtain ⟨x, hx, hxl⟩ := exists_mem_of_forall₂ (forall₂_of_mapM_eq_some hls) hl
  exact hlimit x hx l hxl

variable (hpoint : VarsIn p point)

include hdeeper hpoint

theorem varsIn_quotientLimit? (hn : VarsIn (fun s => s = name ∨ p s) n) (hd : VarsIn (fun s => s = name ∨ p s) d)
    (h : quotientLimit? deeper n d name point = some l) : VarsIn p l := by
  unfold quotientLimit? at h
  split at h
  · rename_i ln ld hln hld
    split at h
    · refine hdeeper h ?_ hpoint
      exact closed_varsIn.inherited.simplify
        (closed_varsIn.quotient (closed_varsIn.derivative hn) (closed_varsIn.derivative hd))
    · split at h
      · obtain ⟨s, -, rfl⟩ := Option.map_eq_some_iff.1 h
        exact varsIn_infinityOf _
      · exact eq_of_defined? h ▸ closed_varsIn.quotient (hdeeper hln hn hpoint) (hdeeper hld hd hpoint)
  · cases h

variable (hx : VarsIn (fun s => s = name ∨ p s) x)

include hx

theorem varsIn_limitByForm? (h : limitByForm? deeper x name point = some l) : VarsIn p l := by
  unfold limitByForm? at h
  split at h
  · rename_i b y
    obtain ⟨hb, hy⟩ := closed_varsIn.pow hx
    obtain ⟨-, h⟩ := Option.ite_none_right_eq_some.1 h
    obtain ⟨l, hl, h⟩ := Option.bind_eq_some_iff.1 h
    refine eq_of_defined? h ▸ closed_varsIn.exp (hdeeper hl ?_ hpoint)
    split
    · exact hy
    · exact closed_varsIn.times hy (closed_varsIn.apply _ hb)
  · obtain ⟨l, hl, h⟩ := Option.bind_eq_some_iff.1 h
    exact eq_of_defined? h ▸ closed_varsIn.apply _ (hdeeper hl (closed_varsIn.arg hx) hpoint)
  · exact varsIn_combineLimits? (fun t ht l hl => hdeeper hl (closed_varsIn.add hx t ht) hpoint) closed_varsIn.sum h
  · cases h

theorem varsIn_limitAsFraction? (h : limitAsFraction? deeper x name point = some l) : VarsIn p l := by
  have hsides := closed_varsIn.inherited.toFraction hx
  exact varsIn_quotientLimit? hdeeper hpoint hsides.num hsides.den (Option.ite_none_left_eq_some.1 h).2

theorem varsIn_productLimit? (h : productLimit? deeper x name point = some l) : VarsIn p l := by
  unfold productLimit? at h
  split at h
  · rename_i fs
    rcases Option.or_eq_some_iff.1 h with h | ⟨-, h⟩
    · exact varsIn_combineLimits? (fun f hf l hl => hdeeper hl (closed_varsIn.mul hx f hf) hpoint)
        closed_varsIn.product h
    · obtain ⟨s, hs, h⟩ := List.exists_of_findSome?_eq_some h
      obtain ⟨hg, hothers⟩ := Inherited.splits (closed_varsIn.mul hx) hs
      have hf := closed_varsIn.product hothers
      dsimp only at h
      split at h
      · cases h
      · rcases Option.or_eq_some_iff.1 h with h | ⟨-, h⟩
        · exact varsIn_quotientLimit? hdeeper hpoint hg (closed_varsIn.inverse hf) h
        · exact varsIn_quotientLimit? hdeeper hpoint hf (closed_varsIn.inverse hg) h
  · cases h

end Rules

theorem dropsVar_limitAt? (k level : Nat) : DropsVar (limitAt? k level) := by
  induction k generalizing level with
  | zero => exact fun x name point l h => nomatch h
  | succ k ih =>
    intro x name point l h p hx hpoint
    have hdeeper := ih (level + 1)
    unfold limitAt? at h
    dsimp only at h
    split at h
    · rename_i hvar
      exact Option.some.inj h ▸ hx.of_or (by simpa using hvar)
    · split at h
      · -- at infinity: the quotient by the new variable is put in for the old one, and the limit drops the new one
        refine hdeeper h (hx.subst ?_ fun v hv hne => .inr (hv.resolve_left hne)) trivial
        exact closed_varsIn.quotient trivial (.inl rfl)
      · simp only [Option.or_eq_some_iff] at h
        rcases h with h | ⟨-, h | ⟨-, h | ⟨-, h | ⟨-, h⟩⟩⟩⟩
        · exact eq_of_defined? h ▸ hx.subst hpoint fun v hv hne => hv.resolve_left hne
        · exact varsIn_limitByForm? hdeeper hpoint hx h
        · exact varsIn_limitAsFraction? hdeeper hpoint hx h
        · exact varsIn_productLimit? hdeeper hpoint hx h
        · exact varsIn_numericLimit? h

/-- A limit has no variables but those of the point, and of the expression those other than the one that moves. -/
theorem varsIn_limit (h : limit x name point = .ok l) (hx : VarsIn (fun s => s = name ∨ p s) x)
    (hpoint : VarsIn p point) : VarsIn p l := by
  unfold limit at h
  split at h
  · rename_i hl
    obtain rfl := Except.ok.inj h
    exact dropsVar_limitAt? limitLevels 0 hl hx hpoint
  · cases h

end SymbolicSolver.Expr
