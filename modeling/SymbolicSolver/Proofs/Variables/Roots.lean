import SymbolicSolver.Equation.Isolate
import SymbolicSolver.Proofs.Polynomial.ClosedForm
import SymbolicSolver.Proofs.Variables.Limit

/-!
# Variables of roots

Isolation finds roots that do not contain the unknown, and that have no variables but the other ones of the expression.
Coefficients do not contain the unknown, what an equation is undone to stands beside the unknown and not in it, and an
inner unknown is gone from its own roots before those are put in its place.
-/

namespace SymbolicSolver.Expr

/-! ## Roots in closed form -/

namespace Closed

variable {P : Expr → Prop} (hP : Closed P) {a b c d x : Expr}

include hP

theorem splitTerms (hx : P x) : ∀ part ∈ x.splitTerms, P part.2 := by
  cases x with
  | add ts =>
    intro part hpart
    obtain ⟨t, ht, rfl⟩ := List.mem_map.1 hpart
    exact hP.splitCoeff (hP.add hx t ht)
  | _ =>
    intro part hpart
    obtain rfl := List.mem_singleton.1 hpart
    exact hP.splitCoeff hx

theorem symbolicSqrt (hd : P d) : P (symbolicSqrt d) := by
  have hscaled (s : Rat) : ∀ t ∈ d.splitTerms.map fun part => .rat (part.1 / (s * s)) * part.2, P t := by
    intro t ht
    obtain ⟨part, hpart, rfl⟩ := List.mem_map.1 ht
    exact hP.times (hP.rat _) (hP.splitTerms hd part hpart)
  simp only [Expr.symbolicSqrt]
  split
  · exact hP.sqrt hd
  · split
    · exact hP.sqrt hd
    · exact hP.times (hP.rat _) (hP.sqrt (hP.sum (hscaled _)))

theorem quadraticRoots (ha : P a) (hb : P b) (hc : P c) (complex : Bool) : ∀ r ∈ quadraticRoots a b c complex, P r := by
  have hint (n : Int) : P (int n) := hP.rat _
  have hdisc : P (b * b - int 4 * a * c) := hP.minus (hP.times hb hb) (hP.times (hP.times (hint 4) ha) hc)
  have htwo : P (int 2 * a) := hP.times (hint 2) ha
  have hpair {w : Expr} (hw : P w) : ∀ r ∈ [(-b - w) / (int 2 * a), (-b + w) / (int 2 * a)], P r := by
    simpa using ⟨hP.quotient (hP.minus (hP.neg hb) hw) htwo, hP.quotient (hP.plus (hP.neg hb) hw) htwo⟩
  have hroot : P (if (b * b - int 4 * a * c).isConstant then Expr.sqrt (b * b - int 4 * a * c)
      else Expr.symbolicSqrt (b * b - int 4 * a * c)) := by
    split
    · exact hP.sqrt hdisc
    · exact hP.symbolicSqrt hdisc
  simp only [Expr.quadraticRoots]
  split
  · split
    · simpa using hP.quotient (hP.neg hb) htwo
    · split
      · simp
      · exact hpair hroot
  · split
    · simp
    · exact hpair hroot

theorem biquadraticRoots (ha : P a) (hb : P b) (hc : P c) (complex : Bool) :
    ∀ r ∈ biquadraticRoots a b c complex, P r := by
  intro r hr
  obtain ⟨y, hy, hr⟩ := List.mem_flatMap.1 hr
  have hroot := hP.sqrt (hP.quadraticRoots ha hb hc true y hy)
  split at hr
  · cases hr
  · simp only [List.mem_cons, List.not_mem_nil, or_false] at hr
    rcases hr with rfl | rfl
    · exact hP.neg hroot
    · exact hroot

theorem residualRoots? {q : RatPoly} {complex : Bool} {rs : List Expr} (h : residualRoots? q complex = some rs) :
    ∀ r ∈ rs, P r := by
  have hcoeff (k : Nat) : P (.rat (q.coeff k)) := hP.rat _
  simp only [Expr.residualRoots?] at h
  split at h
  · exact Option.some.inj h ▸ by simp
  · exact Option.some.inj h ▸ by simp
  · exact Option.some.inj h ▸ by simpa using hP.quotient (hP.neg (hcoeff 0)) (hcoeff 1)
  · exact Option.some.inj h ▸ hP.quadraticRoots (hcoeff 2) (hcoeff 1) (hcoeff 0) _
  · obtain rfl := Option.some.inj (Option.ite_none_right_eq_some.1 h).2
    exact hP.biquadraticRoots (hcoeff 4) (hcoeff 2) (hcoeff 0) _
  · cases h

theorem polynomialRoots? {p : RatPoly} {complex : Bool} {rs : List Expr} (h : polynomialRoots? p complex = some rs) :
    ∀ r ∈ rs, P r := by
  unfold Expr.polynomialRoots? at h
  split at h
  · cases h
  · exact Option.some.inj h ▸ by simp
  · obtain ⟨rest, hrest, rfl⟩ := Option.map_eq_some_iff.1 h
    intro r hr
    rcases List.mem_append.1 ((mem_sortRoots _).1 hr) with hr | hr
    · obtain ⟨q, -, rfl⟩ := List.mem_map.1 hr
      exact hP.rat q
    · exact hP.residualRoots? hrest r hr

theorem rootsOfCoefficients {n : Expr} {name : String} {cs : List Expr} (hcs : ∀ c ∈ cs, P c) :
    ∀ r ∈ rootsOfCoefficients n name cs, P r := by
  unfold Expr.rootsOfCoefficients
  split
  · rename_i p _
    cases h : Expr.polynomialRoots? p true with
    | none => simp
    | some rs => exact hP.polynomialRoots? h
  · split
    · rename_i c0 c1
      obtain ⟨h0, h1⟩ : P c0 ∧ P c1 := by simpa using hcs
      simpa using hP.quotient (hP.neg h0) h1
    · rename_i c0 c1 c2
      obtain ⟨h0, h1, h2⟩ : P c0 ∧ P c1 ∧ P c2 := by simpa using hcs
      exact hP.quadraticRoots h2 h1 h0 true
    · simp

/-- Undoing a function leaves its argument on the left, and builds the right side from the old one. -/
theorem undoFunc {f : Func} {u rhs : Expr} (hrhs : P rhs) : ∀ eq ∈ undoFunc f u rhs, eq.1 = u ∧ P eq.2 := by
  have happly (f : Func) : P (Expr.apply f rhs) := hP.apply f hrhs
  have hlog {x : Expr} (hx : P x) : P (Expr.apply .log x) := hP.apply .log hx
  have hone : P one := hP.rat 1
  have hsquare : P (Expr.power rhs (int 2)) := hP.power hrhs (hP.rat _)
  have hinverse (f : Func) : P (Expr.apply f rhs.inverse) := hP.apply f (hP.inverse hrhs)
  cases f with
  | log => simpa [Expr.undoFunc] using hP.exp hrhs
  | asin => simpa [Expr.undoFunc] using happly .sin
  | acos => simpa [Expr.undoFunc] using happly .cos
  | atan => simpa [Expr.undoFunc] using happly .tan
  | acot => simpa [Expr.undoFunc] using happly .cot
  | asec => simpa [Expr.undoFunc] using happly .sec
  | acsc => simpa [Expr.undoFunc] using happly .csc
  | sin => simpa [Expr.undoFunc] using ⟨happly .asin, hP.minus hP.pi (happly .asin)⟩
  | cos => simpa [Expr.undoFunc] using ⟨happly .acos, hP.neg (happly .acos)⟩
  | tan => simpa [Expr.undoFunc] using happly .atan
  | cot => simpa [Expr.undoFunc] using happly .acot
  | sec => simpa [Expr.undoFunc] using hinverse .acos
  | csc => simpa [Expr.undoFunc] using hinverse .asin
  | sinh => simpa [Expr.undoFunc] using hlog (hP.plus hrhs (hP.sqrt (hP.plus hsquare hone)))
  | cosh =>
    have hvalue := hlog (hP.plus hrhs (hP.sqrt (hP.minus hsquare hone)))
    simpa [Expr.undoFunc] using ⟨hvalue, hP.neg hvalue⟩
  | tanh =>
    have hhalf : P half := hP.rat _
    simpa [Expr.undoFunc] using hP.times hhalf (hlog (hP.quotient (hP.plus hone hrhs) (hP.minus hone hrhs)))

end Closed

/-! ## Undoing an operation -/

section Undo

variable {p : String → Prop} {name : String}

/-- The variables of the two sides of an equation that is still to be solved for a variable. -/
def SidesIn (p : String → Prop) (name : String) (eq : Expr × Expr) : Prop :=
  VarsIn (fun s => s = name ∨ p s) eq.1 ∧ VarsIn p eq.2

theorem varsIn_undoPower? {b x rhs : Expr} {eqs : List (Expr × Expr)} (hb : VarsIn (fun s => s = name ∨ p s) b)
    (hx : VarsIn (fun s => s = name ∨ p s) x) (hrhs : VarsIn p rhs) (h : undoPower? name b x rhs = some eqs) :
    ∀ eq ∈ eqs, SidesIn p name eq := by
  simp only [undoPower?] at h
  split at h
  · rename_i hvar
    have hexp : VarsIn p x := hx.of_or (by simpa using hvar)
    have hroot : VarsIn p (power rhs x.inverse) := closed_varsIn.power hrhs (closed_varsIn.inverse hexp)
    split at h
    · split at h
      · exact Option.some.inj h ▸ by simpa using ⟨⟨hb, hroot⟩, hb, closed_varsIn.neg hroot⟩
      · exact Option.some.inj h ▸ by simpa using ⟨hb, hroot⟩
    · exact Option.some.inj h ▸ by simpa using ⟨hb, hroot⟩
  · obtain ⟨hvar, h⟩ := Option.ite_none_right_eq_some.1 h
    have hbase : VarsIn p b := hb.of_or (by simpa using hvar)
    have hlog := closed_varsIn.quotient (closed_varsIn.apply .log hrhs) (closed_varsIn.apply .log hbase)
    exact Option.some.inj h ▸ by simpa using ⟨hx, hlog⟩

theorem varsIn_undo? {f rhs : Expr} {eqs : List (Expr × Expr)} (hf : VarsIn (fun s => s = name ∨ p s) f)
    (hrhs : VarsIn p rhs) (h : undo? name f rhs = some eqs) : ∀ eq ∈ eqs, SidesIn p name eq := by
  unfold undo? at h
  split at h
  · exact varsIn_undoPower? hf.1 hf.2 hrhs h
  · intro eq heq
    rw [← Option.some.inj h] at heq
    obtain ⟨hleft, hright⟩ := closed_varsIn.undoFunc hrhs eq heq
    exact ⟨hleft ▸ closed_varsIn.arg hf, hright⟩
  · cases h

theorem varsIn_splitFactors {g : Expr} (hg : VarsIn (fun s => s = name ∨ p s) g) :
    VarsIn p (splitFactors name g).1 ∧ VarsIn (fun s => s = name ∨ p s) (splitFactors name g).2 := by
  unfold splitFactors
  split
  · constructor
    · refine closed_varsIn.product fun f hf => ?_
      obtain ⟨hmem, hvar⟩ := List.mem_filter.1 hf
      exact (closed_varsIn.mul hg f hmem).of_or (by simpa using hvar)
    · exact closed_varsIn.product fun f hf => closed_varsIn.mul hg f (List.mem_of_mem_filter hf)
  · exact ⟨trivial, hg⟩

theorem varsIn_invert? {n : Expr} {eqs : List (Expr × Expr)} (hn : VarsIn (fun s => s = name ∨ p s) n)
    (h : invert? n name = some eqs) : ∀ eq ∈ eqs, SidesIn p name eq := by
  have hterms := closed_varsIn.terms hn
  unfold invert? at h
  split at h
  · rename_i g hg
    have hconstant : VarsIn p (-sum (n.terms.filter fun t => !t.hasVar name)) := by
      refine closed_varsIn.neg (closed_varsIn.sum fun t ht => ?_)
      obtain ⟨hmem, hvar⟩ := List.mem_filter.1 ht
      exact (hterms t hmem).of_or (by simpa using hvar)
    have hterm : g ∈ n.terms := List.mem_of_mem_filter (hg ▸ List.mem_singleton_self g)
    obtain ⟨hfactor, hrest⟩ := varsIn_splitFactors (hterms g hterm)
    exact varsIn_undo? hrest (closed_varsIn.quotient hconstant hfactor) (Option.ite_none_left_eq_some.1 h).2
  · cases h

end Undo

/-! ## Inner unknowns -/

section InnerUnknown

variable {p : String → Prop}

theorem Inherited.exponentialRule {P : Expr → Prop} (hP : Inherited P) {u t x y : Expr} (hu : P u) (ht : P t) (hx : P x)
    (h : exponentialRule u t x = some y) : P y := by
  unfold Expr.exponentialRule at h
  split at h
  · obtain ⟨k, -, rfl⟩ := Option.map_eq_some_iff.1 (Option.ite_none_right_eq_some.1 h).2
    exact hP.power ht (hP.simplify (hP.quotient (hP.pow hx).2 hu))
  · cases h

theorem Inherited.withInnerUnknown {P : Expr → Prop} (hP : Inherited P) {n k : Expr} {fresh : String} (hn : P n)
    (hk : P k) (hfresh : P (.var fresh)) : P (withInnerUnknown n k fresh) := by
  have hreplaced := hP.replace k hn hfresh
  unfold Expr.withInnerUnknown
  dsimp only
  split
  · split
    · exact hP.replaceBy (fun hx h => hP.exponentialRule (hP.pow hk).2 hfresh hx h) hreplaced
    · exact hreplaced
  · exact hreplaced

theorem varsIn_innerUnknowns {n k : Expr} {name : String} (hn : VarsIn p n) (h : k ∈ innerUnknowns n name) :
    VarsIn p k :=
  hn.subtree k (List.mem_of_mem_tail (List.mem_of_mem_filter (mem_distinct h)))

end InnerUnknown

/-! ## Isolation -/

theorem exists_mem_of_mem_getD {r : Expr} {found : Option (List Expr)} (h : r ∈ found.getD []) :
    ∃ roots, found = some roots ∧ r ∈ roots := by
  cases found with
  | none => cases h
  | some roots => exact ⟨roots, rfl, h⟩

/-- A finder whose roots do not bring in the unknown, nor any other variable. -/
def DropsUnknown (finder : RootFinder) : Prop :=
  ∀ ⦃f name r⦄, r ∈ finder f name → ∀ ⦃p : String → Prop⦄, VarsIn (fun s => s = name ∨ p s) f → VarsIn p r

section Isolation

variable {p : String → Prop} {name fresh : String} {deeper : RootFinder} (hdeeper : DropsUnknown deeper)
  {n : Expr} (hn : VarsIn (fun s => s = name ∨ p s) n)

include hdeeper hn

theorem varsIn_rootsByInnerUnknown : ∀ r ∈ rootsByInnerUnknown deeper n name fresh, VarsIn p r := by
  intro r hr
  obtain ⟨roots, hroots, hr⟩ := exists_mem_of_mem_getD hr
  obtain ⟨k, hmem, h⟩ := List.exists_of_findSome?_eq_some hroots
  have hk := varsIn_innerUnknowns hn hmem
  obtain ⟨hvar, h⟩ := Option.ite_none_left_eq_some.1 h
  have hinner : VarsIn (fun s => s = fresh ∨ p s) (withInnerUnknown n k fresh) := by
    have hmono {x : Expr} (hx : VarsIn (fun s => s = name ∨ p s) x) : VarsIn (fun s => s = name ∨ s = fresh ∨ p s) x :=
      hx.mono fun _ hs => hs.imp_right .inr
    have hfresh : VarsIn (fun s => s = name ∨ s = fresh ∨ p s) (var fresh) := .inr (.inl rfl)
    exact (closed_varsIn.inherited.withInnerUnknown (hmono hn) (hmono hk) hfresh).of_or (by simpa using hvar)
  split at h
  · cases h
  · obtain rfl := Option.some.inj h
    obtain ⟨v, hv, hr⟩ := List.mem_flatMap.1 hr
    have hvalue : VarsIn p v := hdeeper hv hinner
    exact hdeeper hr (closed_varsIn.minus hk (hvalue.mono fun _ => .inr))

theorem varsIn_rootsByForm : ∀ r ∈ rootsByForm deeper n name fresh, VarsIn p r := by
  intro r hr
  have hexpanded := closed_varsIn.inherited.expand hn
  simp only [rootsByForm] at hr
  split at hr
  · rename_i cs hcs
    refine closed_varsIn.rootsOfCoefficients (fun c hc => ?_) r hr
    obtain ⟨hc, hvar⟩ := closed_varsIn.inherited.coefficients? hexpanded hcs c hc
    exact hc.of_or hvar
  · split at hr
    · obtain ⟨g, hg, hr⟩ := List.mem_flatMap.1 hr
      exact hdeeper hr (closed_varsIn.mul hn g (List.mem_of_mem_filter hg))
    · split at hr
      · rename_i equations heqs
        obtain ⟨eq, heq, hr⟩ := List.mem_flatMap.1 hr
        obtain ⟨hleft, hright⟩ := varsIn_invert? hn heqs eq (List.mem_of_mem_filter heq)
        exact hdeeper hr (closed_varsIn.minus hleft (hright.mono fun _ => .inr))
      · exact varsIn_rootsByInnerUnknown hdeeper hn r hr

end Isolation

theorem mem_of_mem_excludePoles {roots : List Expr} {d r : Expr} {name : String} (h : r ∈ excludePoles roots d name) :
    r ∈ roots := by
  unfold excludePoles at h
  split at h
  · exact List.mem_of_mem_filter h
  · exact h

theorem dropsUnknown_isolateAt (k level : Nat) : DropsUnknown (isolateAt k level) := by
  induction k generalizing level with
  | zero => exact fun f name r hr => nomatch hr
  | succ k ih =>
    intro f name r hr p hf
    simp only [isolateAt] at hr
    split at hr
    · cases hr
    · exact varsIn_rootsByForm (ih (level + 1)) (closed_varsIn.inherited.toFraction hf).num r
        (mem_of_mem_excludePoles hr)

/-- The exact roots of an expression do not contain the unknown, and bring in no variable. -/
theorem dropsUnknown_isolate : DropsUnknown isolate := dropsUnknown_isolateAt isolationLevels 0

end SymbolicSolver.Expr
