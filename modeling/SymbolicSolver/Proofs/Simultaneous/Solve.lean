import Mathlib.Data.String.Basic
import SymbolicSolver.Proofs.Simultaneous.Elimination
import SymbolicSolver.Simultaneous.Solve

/-!
# Linear systems are solved exactly

A linear system without solutions is answered with none, and every tuple that is given satisfies every equation,
whatever the unknowns that stand for themselves are worth. Both hold where no constant that is met on the way is taken
for zero without being zero.
-/

namespace SymbolicSolver

open SymbolicSolver.Expr Bindings Elimination

/-! ## The unknowns -/

namespace Expr

theorem sorted_insertName (s : String) {names : List String} (h : names.Pairwise (· < ·)) :
    (insertName s names).Pairwise (· < ·) := by
  induction names with
  | nil => exact List.pairwise_singleton _ _
  | cons t names ih =>
    obtain ⟨ht, hnames⟩ := List.pairwise_cons.1 h
    simp only [insertName]
    split
    · rename_i hst
      refine List.pairwise_cons.2 ⟨List.forall_mem_cons.2 ⟨hst, fun u hu => ?_⟩, h⟩
      exact hst.trans (ht u hu)
    · rename_i hst
      split
      · exact h
      · rename_i hne
        refine List.pairwise_cons.2 ⟨fun u hu => ?_, ih hnames⟩
        rcases mem_insertName.1 hu with rfl | hu
        · exact lt_of_le_of_ne (not_lt.1 hst) (Ne.symm hne)
        · exact ht u hu

mutual

theorem sorted_collectVars : ∀ (x : Expr) {names : List String}, names.Pairwise (· < ·) →
    (collectVars x names).Pairwise (· < ·)
  | var s, _, h => sorted_insertName s h
  | add ts, _, h => sorted_collectVarsAll ts h
  | mul fs, _, h => sorted_collectVarsAll fs h
  | pow b x, _, h => sorted_collectVars x (sorted_collectVars b h)
  | fn _ x, _, h => sorted_collectVars x h
  | rat _, _, h | pi, _, h | e, _, h | i, _, h | infinity, _, h | undefined, _, h => h

theorem sorted_collectVarsAll : ∀ (xs : List Expr) {names : List String}, names.Pairwise (· < ·) →
    (collectVarsAll xs names).Pairwise (· < ·)
  | [], _, h => h
  | x :: xs, _, h => sorted_collectVarsAll xs (sorted_collectVars x h)

end

end Expr

namespace Simultaneous

variable {equations : List (Expr × Expr)}

theorem unknownsOf_nodup (equations : List (Expr × Expr)) : (unknownsOf equations).Nodup := by
  have hsorted : ∀ names : List String, names.Pairwise (· < ·) →
      (equations.foldl (fun vars eq => eq.2.collectVars (eq.1.collectVars vars)) names).Pairwise (· < ·) := by
    induction equations with
    | nil => exact fun _ h => h
    | cons eq equations ih => exact fun _ h => ih _ (sorted_collectVars _ (sorted_collectVars _ h))
  exact (hsorted [] .nil).imp fun h => h.ne

/-- What holds of the unknowns holds of the variables on both sides. -/
theorem forall_mem_unknownsOf {p : String → Prop} :
    (∀ v ∈ unknownsOf equations, p v) ↔ ∀ eq ∈ equations, VarsIn p eq.1 ∧ VarsIn p eq.2 := by
  have hall : ∀ names : List String,
      (∀ v ∈ equations.foldl (fun vars eq => eq.2.collectVars (eq.1.collectVars vars)) names, p v) ↔
        (∀ eq ∈ equations, VarsIn p eq.1 ∧ VarsIn p eq.2) ∧ ∀ v ∈ names, p v := by
    induction equations with
    | nil => simp
    | cons eq equations ih =>
      intro names
      rw [List.foldl_cons, ih, forall_mem_collectVars, forall_mem_collectVars, List.forall_mem_cons]
      exact ⟨fun ⟨h, h2, h1, hn⟩ => ⟨⟨⟨h1, h2⟩, h⟩, hn⟩, fun ⟨⟨⟨h1, h2⟩, h⟩, hn⟩ => ⟨h, h2, h1, hn⟩⟩
  have h := hall []
  simpa [unknownsOf] using h

/-- The differences of the sides. -/
def differences (equations : List (Expr × Expr)) : List Expr := equations.map fun eq => eq.1 - eq.2

theorem linearSystem (hfew : (unknownsOf equations).length ≤ 12)
    (hlinear : ∀ eq ∈ equations, Linear (eq.1 - eq.2)) :
    LinearSystem ⟨differences equations, unknownsOf equations⟩ := by
  refine ⟨unknownsOf_nodup equations, hfew, fun f hf => ?_, fun f hf => ?_⟩
  · obtain ⟨eq, heq, rfl⟩ := List.mem_map.1 hf
    exact hlinear eq heq
  · obtain ⟨eq, heq, rfl⟩ := List.mem_map.1 hf
    obtain ⟨hl, hr⟩ := forall_mem_unknownsOf.1 (fun v hv => hv) eq heq
    exact hereditary_varsIn.sum (by simpa using ⟨hl, hereditary_varsIn.neg hr⟩)

/-! ## Tuples -/

theorem mem_of_mem_dropRepeated {t : SolutionTuple} {ts : List SolutionTuple} (h : t ∈ dropRepeated ts) :
    t ∈ ts := by
  induction ts with
  | nil => exact h
  | cons u ts ih =>
    unfold dropRepeated at h
    split at h
    · exact List.mem_singleton.1 h ▸ List.mem_cons_self
    · rename_i w ws hrest
      split at h
      · exact List.mem_cons_of_mem _ (ih (hrest ▸ h))
      · exact (List.mem_cons.1 h).elim (fun heq => heq ▸ List.mem_cons_self)
          fun hmem => List.mem_cons_of_mem _ (ih (hrest ▸ hmem))

theorem mem_of_ofTuples {unknowns vs : List String} {ts us : List SolutionTuple}
    (h : ofTuples unknowns ts = .tuples vs us) : vs = unknowns ∧ ∀ t ∈ us, t ∈ ts := by
  unfold ofTuples at h
  split at h
  · cases h
  · cases h
    exact ⟨rfl, fun t ht => (List.mergeSort_perm ts _).mem_iff.1 (mem_of_mem_dropRepeated ht)⟩

/-- The tuple of a solved form: an assignment with its values agrees with the form. -/
theorem agrees_of_tuple {unknowns : List String} (hnodup : unknowns.Nodup) {m : Bindings}
    (hm : Bindings.Solved unknowns m) {ρ σ : String → Rat}
    (hσ : ∀ p ∈ unknowns.zip (unknowns.map fun v => (m.find? v).getD (.var v)), σ p.1 = valueAt ρ p.2) :
    Agrees σ m := by
  refine hm.agrees (ρ := ρ) fun b hb => ?_
  have hkeys : (m.map (·.1)).Nodup := hm.names.nodup_iff.2 hnodup
  have hmem : b.1 ∈ unknowns := hm.names.mem_iff.1 (List.mem_map_of_mem hb)
  have hfind : (m.find? b.1).getD (.var b.1) = b.2 := by
    rw [(find?_eq_some hkeys).2 hb, Option.getD_some]
  have hzip : unknowns.zip (unknowns.map fun v => (m.find? v).getD (.var v)) =
      unknowns.map fun v => (v, (m.find? v).getD (.var v)) := by
    simpa using List.zip_map' (f := id) (g := fun v => (m.find? v).getD (.var v)) (l := unknowns)
  refine hσ (b.1, b.2) ?_
  rw [hzip, ← hfind]
  exact List.mem_map_of_mem hmem

theorem mem_eliminationTuples {fs : List Expr} {unknowns : List String} {ms : List Bindings} {t : SolutionTuple}
    (h : t ∈ eliminationTuples fs unknowns ms) :
    ∃ m ∈ ms, t = (unknowns.map fun v => (m.find? v).getD (.var v)).map .exact := by
  obtain ⟨xs, hxs, rfl⟩ := List.mem_map.1 h
  obtain ⟨m, hm, rfl⟩ := List.mem_map.1 (List.mem_of_mem_filter hxs)
  exact ⟨m, hm, rfl⟩

/-! ## Solving -/

/-- The constants on the way that are taken for zero are zero, and no coefficient comes near the limit for powers. -/
def Faithful (s : Elimination.System) : Prop := Moderate s ∧ Exact s

/-- Every value of the tuple is defined at every assignment, and what the unknowns are worth there satisfies every
equation. -/
def SatisfiesIdentically (equations : List (Expr × Expr)) (unknowns : List String) (t : SolutionTuple) : Prop :=
  ∃ xs : List Expr, t = xs.map .exact ∧ xs.length = unknowns.length ∧
    ∀ ρ, (∀ x ∈ xs, DefinedAt ρ x) ∧
      ∀ σ, (∀ p ∈ unknowns.zip xs, σ p.1 = valueAt ρ p.2) → ∀ eq ∈ equations, valueAt σ (eq.1 - eq.2) = 0

/-- What elimination makes of the equations. -/
theorem solve?_differences (settings : Settings) (hfew : (unknownsOf equations).length ≤ 12)
    (hlinear : ∀ eq ∈ equations, Linear (eq.1 - eq.2))
    (hrun : Along Faithful ⟨differences equations, unknownsOf equations⟩) :
    ∃ ms, Elimination.solve? settings (equations.map fun eq => (eq.1 - eq.2).simplify) (unknownsOf equations) =
        some ms ∧ Answer True ⟨differences equations, unknownsOf equations⟩ ms := by
  have hsystem := linearSystem hfew hlinear
  have hsame : (equations.map fun eq => (eq.1 - eq.2).simplify) = differences equations := by
    refine List.map_congr_left fun eq heq => ?_
    have hmem : eq.1 - eq.2 ∈ differences equations := List.mem_map_of_mem heq
    refine simplify_of_coeffBits (hlinear eq heq) (hsystem.vars _ hmem) hfew fun t ht => ?_
    exact (hrun.self.1 _ hmem t ht).trans (Nat.le_mul_of_pos_left _ two_pos)
  obtain ⟨ms, hms, hanswer⟩ := solveWithin_linear settings levels (Nat.lt_of_le_of_lt hfew (by decide)) hsystem
    fun t ht => (hrun t ht).1
  refine ⟨ms, hsame ▸ hms, ?_⟩
  cases hanswer with
  | inconsistent hnone => exact .inconsistent hnone
  | solved hm hcomplete hsound => exact .solved hm hcomplete fun _ => hsound fun t ht => (hrun t ht).2

/-- A tuple of a solved form satisfies the equations identically. -/
theorem satisfiesIdentically {m : Bindings} (hm : Bindings.Solved (unknownsOf equations) m)
    (hsound : ∀ ρ, Agrees ρ m → Solves ρ (differences equations)) :
    SatisfiesIdentically equations (unknownsOf equations)
      (((unknownsOf equations).map fun v => (m.find? v).getD (.var v)).map .exact) := by
  have hnodup := unknownsOf_nodup equations
  refine ⟨_, rfl, List.length_map _, fun ρ => ⟨fun x hx => ?_, fun σ hσ eq heq => ?_⟩⟩
  · obtain ⟨v, hv, rfl⟩ := List.mem_map.1 hx
    obtain ⟨b, hb, rfl⟩ := List.mem_map.1 (hm.names.mem_iff.2 hv)
    rw [(find?_eq_some (hm.names.nodup_iff.2 hnodup)).2 hb, Option.getD_some]
    exact hm.entire b hb ρ
  · exact hsound σ (agrees_of_tuple hnodup hm hσ) _ (List.mem_map_of_mem heq)

theorem solvePairs_spec (settings : Settings) (hfew : (unknownsOf equations).length ≤ 12)
    (hlinear : ∀ eq ∈ equations, Linear (eq.1 - eq.2))
    (hrun : Along Faithful ⟨differences equations, unknownsOf equations⟩) :
    ((∀ ρ, ∃ eq ∈ equations, valueAt ρ (eq.1 - eq.2) ≠ 0) → solvePairs equations settings = .empty) ∧
      ∀ unknowns ts, solvePairs equations settings = .tuples unknowns ts →
        ∀ t ∈ ts, SatisfiesIdentically equations unknowns t := by
  obtain ⟨ms, hms, hanswer⟩ := solve?_differences settings hfew hlinear hrun
  simp only [solvePairs, hms]
  cases hanswer with
  | inconsistent hnone =>
    refine ⟨fun _ => rfl, fun unknowns ts h => ?_⟩
    simp [eliminationTuples, ofTuples] at h
  | @solved m hm hcomplete hsound =>
    refine ⟨fun hnone => ?_, fun unknowns ts h t ht => ?_⟩
    · -- the values of the solved form at the origin are a solution
      obtain ⟨eq, heq, hne⟩ := hnone fun v => valueAt (fun _ => 0) ((m.find? v).getD (.var v))
      refine absurd (hsound trivial _ (hm.agrees (ρ := fun _ => 0) fun b hb => ?_) _ (List.mem_map_of_mem heq)) hne
      rw [(find?_eq_some (hm.names.nodup_iff.2 (unknownsOf_nodup equations))).2 hb, Option.getD_some]
    · obtain ⟨rfl, hmem⟩ := mem_of_ofTuples h
      obtain ⟨m', hm', rfl⟩ := mem_eliminationTuples (hmem t ht)
      obtain rfl := List.mem_singleton.1 hm'
      exact satisfiesIdentically hm (hsound trivial)

/-- Linear systems are solved exactly: without a rational solution the answer is that there is none, and every tuple
that is given satisfies every equation identically. -/
theorem solve_linear {texts : List String} (settings : Settings) (hread : readEquations texts = .ok equations)
    (hfew : (unknownsOf equations).length ≤ 12) (hlinear : ∀ eq ∈ equations, Linear (eq.1 - eq.2))
    (hrun : Along Faithful ⟨differences equations, unknownsOf equations⟩) :
    ∃ s, solve texts settings = .ok s ∧
      ((∀ ρ, ∃ eq ∈ equations, valueAt ρ (eq.1 - eq.2) ≠ 0) → s = .empty) ∧
      ∀ unknowns ts, s = .tuples unknowns ts → ∀ t ∈ ts, SatisfiesIdentically equations unknowns t := by
  cases equations with
  | nil =>
    refine ⟨.empty, by rw [solve, hread], fun _ => rfl, fun unknowns ts h => ?_⟩
    cases h
  | cons eq equations =>
    refine ⟨solvePairs (eq :: equations) settings, by rw [solve, hread], ?_⟩
    exact solvePairs_spec settings hfew hlinear hrun

/-- Reading the two sides of an equation. -/
theorem readEquation?_eq {s l r : String} {x y : Expr}
    (hsides : (Text.splitOnce? '=' s.toList).map (fun p => (Query.normalChars p.1, Query.normalChars p.2)) =
      some (l.toList, r.toList))
    (hl : Expr.read l = .ok x) (hr : Expr.read r = .ok y) : readEquation? s = some (.ok (x, y)) := by
  obtain ⟨p, hp, hpair⟩ := Option.map_eq_some_iff.1 hsides
  obtain ⟨hpl, hpr⟩ := Prod.mk.inj hpair
  rw [readEquation?, hp, Option.map_some, hpl, hpr, String.ofList_toList, String.ofList_toList, hl, hr]

theorem read_twoLines : readEquations ["x+y=3", "x-y=1"] =
    .ok [(add [var "x", var "y"], rat 3), (add [var "x", mul [rat (-1), var "y"]], rat 1)] := by
  have hfirst : readEquation? "x+y=3" = some (.ok (add [var "x", var "y"], rat 3)) := by
    refine readEquation?_eq (l := "x+y") (r := "3") (by decide +kernel) ?_ ?_
    · cbv
    · cbv
  have hsecond : readEquation? "x-y=1" = some (.ok (add [var "x", mul [rat (-1), var "y"]], rat 1)) := by
    refine readEquation?_eq (l := "x-y") (r := "1") (by decide +kernel) ?_ ?_
    · cbv
    · cbv
  simp only [readEquations, List.filterMap_cons, List.filterMap_nil, hfirst, hsecond]
  rfl

/-- Whatever is given for `x + y = 3` and `x - y = 1` satisfies both. -/
theorem solve_linear_two_lines : ∃ s, solve ["x+y=3", "x-y=1"] .default = .ok s ∧
    ∀ unknowns ts, s = .tuples unknowns ts → ∀ t ∈ ts,
      SatisfiesIdentically [(add [var "x", var "y"], rat 3), (add [var "x", mul [rat (-1), var "y"]], rat 1)]
        unknowns t := by
  have hunknowns : unknownsOf [(add [var "x", var "y"], rat 3),
      (add [var "x", mul [rat (-1), var "y"]], rat 1)] = ["x", "y"] := by
    decide
  have hdifferences : differences [(add [var "x", var "y"], rat 3),
      (add [var "x", mul [rat (-1), var "y"]], rat 1)] = twoLines := by
    cbv
  have hlinear : ∀ eq ∈ [(add [var "x", var "y"], rat 3), (add [var "x", mul [rat (-1), var "y"]], rat 1)],
      Linear (eq.1 - eq.2) := fun eq heq =>
    twoLines_linear _ (hdifferences ▸ List.mem_map_of_mem heq)
  have hrun : Along Faithful ⟨twoLines, ["x", "y"]⟩ := by
    have hmoderate := moderate_twoLines
    refine along_twoLines ⟨hmoderate.self, ?_⟩ ⟨?_, ?_⟩ ⟨?_, ?_⟩
    · simp [Exact, twoLines]
    · unfold Moderate CoeffBits
      decide
    · simp [Exact]
    · simp [Moderate]
    · simp [Exact]
  rw [← hunknowns, ← hdifferences] at hrun
  obtain ⟨s, hs, -, htuples⟩ := solve_linear .default read_twoLines (by rw [hunknowns]; decide) hlinear hrun
  exact ⟨s, hs, htuples⟩

end Simultaneous

end SymbolicSolver
