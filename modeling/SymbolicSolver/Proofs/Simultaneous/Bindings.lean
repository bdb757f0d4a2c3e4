import SymbolicSolver.Proofs.Simplify.Plain
import SymbolicSolver.Simultaneous.Elimination

/-!
# Solved forms

Bindings are in solved form if every value mentions only unknowns that stand for themselves. An assignment agrees with
bindings if every value has the value of its unknown there. Putting the bindings into an expression does not change its
value at an assignment that agrees with them, so extending them by one more unknown leads to a solved form again, and
adds just one condition to what agreeing means.
-/

namespace SymbolicSolver

open Expr

/-! ## Expressions with a value everywhere -/

namespace Expr

/-- The expression has a value at every assignment. -/
def Entire (x : Expr) : Prop := ∀ ρ, DefinedAt ρ x

theorem Entire.plain {p : String → Prop} {x : Expr} (hx : Entire x) (h : VarsIn p x) : Plain p x :=
  plain_of_definedAt x (hx fun _ => 0) h

theorem Entire.subst {x y : Expr} (hx : Entire x) (hy : Entire y) (s : String) : Entire (x.subst s y) :=
  fun ρ => (subst_value (hy ρ) x (hx _)).1

end Expr

/-! ## Insertion -/

namespace Bindings

variable {m : Bindings} {v : String} {x : Expr}

/-- A new name joins the others. -/
theorem insert_perm (h : v ∉ m.map (·.1)) : (m.insert v x).Perm ((v, x) :: m) := by
  induction m with
  | nil => exact .refl _
  | cons b m ih =>
    obtain ⟨hb, hm⟩ : v ≠ b.1 ∧ v ∉ m.map (·.1) := by simpa [eq_comm] using h
    rw [insert]
    split
    · exact .refl _
    · exact ((ih hm).cons b).trans (.swap (v, x) b m)

theorem find?_eq_some (h : (m.map (·.1)).Nodup) : m.find? v = some x ↔ (v, x) ∈ m := by
  induction m with
  | nil => simp [find?]
  | cons b m ih =>
    rw [List.map_cons, List.nodup_cons] at h
    by_cases hb : b.1 = v
    · have hnot : (v, x) ∉ m := fun hmem => h.1 (hb ▸ List.mem_map_of_mem hmem)
      simp only [find?, List.find?_cons, hb, decide_true, Option.map_some, Option.some.injEq, List.mem_cons,
        hnot, or_false]
      constructor
      · rintro rfl
        rw [← hb]
      · intro heq
        rw [← heq]
    · have hnot : (v, x) ≠ b := fun heq => hb (by rw [← heq])
      simpa [find?, List.find?_cons, hb, hnot] using ih h.2

/-! ## Putting the values in -/

/-- Every value has the value of its unknown. -/
def Agrees (ρ : String → Rat) (m : Bindings) : Prop := ∀ b ∈ m, valueAt ρ b.2 = ρ b.1

theorem substAll_cons (b : String × Expr) (m : Bindings) (x : Expr) :
    substAll (b :: m) x = substAll m (x.subst b.1 b.2) := rfl

theorem substAll_entire (hm : ∀ b ∈ m, Entire b.2) (hx : Entire x) : Entire (m.substAll x) := by
  induction m generalizing x with
  | nil => exact hx
  | cons b m ih =>
    obtain ⟨hb, hm⟩ := List.forall_mem_cons.1 hm
    rw [substAll_cons]
    exact ih hm (hx.subst hb b.1)

theorem substAll_value {ρ : String → Rat} (hρ : Agrees ρ m) (hm : ∀ b ∈ m, Entire b.2) (hx : Entire x) :
    valueAt ρ (m.substAll x) = valueAt ρ x := by
  induction m generalizing x with
  | nil => rfl
  | cons b m ih =>
    obtain ⟨hb, hm⟩ := List.forall_mem_cons.1 hm
    obtain ⟨hρb, hρ⟩ := List.forall_mem_cons.1 hρ
    rw [substAll_cons, ih hρ hm (hx.subst hb b.1)]
    exact (subst_value_of_agrees (hb ρ) (hx ρ) hρb).2

/-- The names disappear, one after the other. -/
theorem substAll_plain {p : String → Prop} (hm : ∀ b ∈ m, Plain p b.2)
    (hx : Plain (fun w => w ∈ m.map (·.1) ∨ p w) x) : Plain p (m.substAll x) := by
  induction m generalizing x with
  | nil => exact hx.mono fun w hw => hw.resolve_left List.not_mem_nil
  | cons b m ih =>
    obtain ⟨hb, hm⟩ := List.forall_mem_cons.1 hm
    rw [substAll_cons]
    refine ih hm (hx.subst (hb.mono fun _ => .inr) fun w hw hne => ?_)
    rw [List.map_cons, List.mem_cons, or_assoc] at hw
    exact hw.resolve_left hne

/-! ## Solved forms -/

/-- Values for the unknowns that have a value everywhere and mention only unknowns that stand for themselves. -/
structure Solved (unknowns : List String) (m : Bindings) : Prop where
  names : (m.map (·.1)).Perm unknowns
  free : ∀ b ∈ m, VarsIn (fun w => (w, var w) ∈ m) b.2
  entire : ∀ b ∈ m, Entire b.2

theorem free_solved (unknowns : List String) : Solved unknowns (free unknowns) := by
  refine ⟨?_, fun b hb => ?_, fun b hb => ?_⟩
  · rw [free, List.map_map]
    exact .of_eq (List.map_id unknowns)
  · obtain ⟨v, hv, rfl⟩ := List.mem_map.1 hb
    exact List.mem_map_of_mem hv
  · obtain ⟨v, -, rfl⟩ := List.mem_map.1 hb
    exact fun _ => trivial

theorem free_agrees (ρ : String → Rat) (unknowns : List String) : Agrees ρ (free unknowns) := by
  intro b hb
  obtain ⟨v, -, rfl⟩ := List.mem_map.1 hb
  rfl

theorem extend_perm {others : List String} (hm : Solved others m) (hv : v ∉ others) :
    (m.extend v x).Perm ((v, (m.substAll x).simplify) :: m) :=
  insert_perm fun h => hv (hm.names.mem_iff.1 h)

section Extend

variable {others : List String} (hm : Solved others m) (hx : Entire x) (hvars : VarsIn (· ∈ others) x)
  (hv : v ∉ others)

include hm hx hvars

/-- Only unknowns that stand for themselves are left in the value. -/
theorem plain_extended : Plain (fun w => (w, var w) ∈ m) (m.substAll x) := by
  refine substAll_plain (fun b hb => (hm.entire b hb).plain (hm.free b hb)) (hx.plain ?_)
  rw [← forall_mem_freeVars] at hvars ⊢
  exact fun w hw => .inl (hm.names.mem_iff.2 (hvars w hw))

theorem extended_keepsValue (ρ : String → Rat) :
    DefinedAt ρ (m.substAll x).simplify ∧ valueAt ρ (m.substAll x).simplify = valueAt ρ (m.substAll x) :=
  (plain_extended hm hx hvars).simplify_keepsValue ρ (substAll_entire hm.entire hx ρ)

include hv

/-- One more value makes a solved form again. -/
theorem Solved.extend {unknowns : List String} (hnames : unknowns.Perm (v :: others)) :
    Solved unknowns (m.extend v x) := by
  have hperm := extend_perm (x := x) hm hv
  have hsub : ∀ w, (w, var w) ∈ m → (w, var w) ∈ m.extend v x := fun w hw =>
    hperm.mem_iff.2 (List.mem_cons_of_mem _ hw)
  refine ⟨?_, fun b hb => ?_, fun b hb => ?_⟩
  · exact (hperm.map _).trans ((hm.names.cons v).trans hnames.symm)
  · rcases List.mem_cons.1 (hperm.mem_iff.1 hb) with rfl | hb
    · exact ((plain_extended hm hx hvars).simplify.mono hsub).varsIn
    · exact (((hm.entire b hb).plain (hm.free b hb)).mono hsub).varsIn
  · rcases List.mem_cons.1 (hperm.mem_iff.1 hb) with rfl | hb
    · exact fun ρ => (extended_keepsValue hm hx hvars ρ).1
    · exact hm.entire b hb

/-- Agreeing with one more value means that its unknown has that value. -/
theorem agrees_extend {ρ : String → Rat} :
    Agrees ρ (m.extend v x) ↔ Agrees ρ m ∧ valueAt ρ x = ρ v := by
  have hperm := extend_perm (x := x) hm hv
  have hall : Agrees ρ (m.extend v x) ↔ Agrees ρ ((v, (m.substAll x).simplify) :: m) :=
    forall_congr' fun b => imp_congr_left hperm.mem_iff
  rw [hall, Agrees, List.forall_mem_cons, and_comm]
  refine and_congr_right fun hρ => ?_
  dsimp only
  rw [(extended_keepsValue hm hx hvars ρ).2, substAll_value hρ hm.entire hx]

end Extend

/-- What the unknowns are worth at an assignment agrees with the bindings. -/
theorem Solved.agrees {unknowns : List String} (h : Solved unknowns m) {ρ σ : String → Rat}
    (hσ : ∀ b ∈ m, σ b.1 = valueAt ρ b.2) : Agrees σ m := by
  intro b hb
  have hplain := (h.entire b hb).plain (h.free b hb)
  have hsame : ∀ w, (w, var w) ∈ m → σ w = ρ w := fun w hw => hσ (w, var w) hw
  rw [hσ b hb]
  exact (hplain.reading (r := .ofVars σ) (s := .ofVars ρ) hsame).2

end Bindings

end SymbolicSolver
