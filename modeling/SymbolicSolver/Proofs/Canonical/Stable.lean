import Mathlib.Data.List.Permutation
import SymbolicSolver.Proofs.Canonical.FormProduct
import SymbolicSolver.Proofs.Postfix.Grammar

/-!
# Stability of canonical forms

Building a tree anew from the bottom up leaves canonical expressions as they are. Sums, products and whole powers lead
from rationals, variables, `π`, `e` and calls to canonical expressions only, so whatever they build is stable, and so
is what the reader makes of a formula with whole exponents. Other exponents lead out of this class.
-/

namespace SymbolicSolver

namespace Expr

/-! ## Building anew -/

/-- The tree built anew from the bottom up. -/
def rebuild (x : Expr) : Expr := x.replaceBy fun _ => none

theorem replaceAllBy_eq_map (rule : Expr → Option Expr) (xs : List Expr) :
    replaceAllBy rule xs = xs.map (replaceBy rule) := by
  induction xs with
  | nil => rfl
  | cons x xs ih => rw [replaceAllBy, ih, List.map_cons]

@[simp] theorem rebuild_rat (q : Rat) : rebuild (rat q) = rat q := rfl

@[simp] theorem rebuild_var (s : String) : rebuild (var s) = var s := rfl

@[simp] theorem rebuild_add (ts : List Expr) : rebuild (add ts) = sum (ts.map rebuild) := by
  rw [rebuild, replaceBy, replaceAllBy_eq_map]
  rfl

@[simp] theorem rebuild_mul (fs : List Expr) : rebuild (mul fs) = product (fs.map rebuild) := by
  rw [rebuild, replaceBy, replaceAllBy_eq_map]
  rfl

@[simp] theorem rebuild_pow (b x : Expr) : rebuild (pow b x) = power (rebuild b) (rebuild x) := rfl

@[simp] theorem rebuild_fn (f : Func) (x : Expr) : rebuild (fn f x) = apply f (rebuild x) := rfl

theorem map_rebuild {xs : List Expr} (h : ∀ x ∈ xs, rebuild x = x) : xs.map rebuild = xs := by
  calc xs.map rebuild = xs.map id := List.map_congr_left h
    _ = xs := List.map_id xs

/-- Canonical expressions are stable. -/
theorem Canonical.rebuild {x : Expr} (h : Canonical x) : x.rebuild = x := by
  induction h with
  | rat | var | pi | e => rfl
  | call hx h ih => rw [rebuild_fn, ih, h]
  | power hb hbase h0 h1 hlarge ih =>
    rw [rebuild_pow, ih]
    exact power_base (.power hb hbase h0 h1 hlarge)
  | product hfs hrow hlen ih =>
    rw [rebuild_mul, map_rebuild ih]
    exact product_factors hfs hrow hlen
  | @scaled c fs hfs hrow hc0 hc1 hne hlone ih =>
    rw [rebuild_mul, List.map_cons, map_rebuild ih]
    exact product_scaled hfs hrow hc0 hc1 hne hlone
  | sum hts hrow hlen ih =>
    rw [rebuild_add, map_rebuild ih]
    exact sum_terms hts hrow hlen

/-! ## What is built -/

/-- What sums, products and whole powers build from rationals, variables, `π`, `e` and calls that the functions leave
as they are. -/
inductive Built : Expr → Prop
  | rat (q : Rat) : Built (rat q)
  | var (s : String) : Built (var s)
  | pi : Built pi
  | e : Built e
  | call {f : Func} {x : Expr} (hx : Built x) (h : apply f x = fn f x) : Built (apply f x)
  | sum {xs : List Expr} (h : ∀ x ∈ xs, Built x) : Built (sum xs)
  | product {xs : List Expr} (h : ∀ x ∈ xs, Built x) : Built (product xs)
  | power {b : Expr} (hb : Built b) (n : Int) : Built (power b (.rat n))

theorem mem_flattenTerms {x : Expr} (hx : x.isSum = false) {xs : List Expr} (h : x ∈ xs) :
    x ∈ flattenTerms xs := by
  fun_induction flattenTerms xs with
  | case1 => simp at h
  | case2 ys xs _ ih =>
    rcases List.mem_cons.1 h with rfl | h
    · cases hx
    · exact List.mem_append_right _ (ih h)
  | case3 y xs _ ih =>
    rcases List.mem_cons.1 h with rfl | h
    · exact List.mem_cons_self
    · exact List.mem_cons_of_mem _ (ih h)

theorem mem_flattenFactors {x : Expr} (hx : x.isProduct = false) {xs : List Expr} (h : x ∈ xs) :
    x ∈ flattenFactors xs := by
  fun_induction flattenFactors xs with
  | case1 => simp at h
  | case2 ys xs _ ih =>
    rcases List.mem_cons.1 h with rfl | h
    · cases hx
    · exact List.mem_append_right _ (ih h)
  | case3 y xs _ ih =>
    rcases List.mem_cons.1 h with rfl | h
    · exact List.mem_cons_self
    · exact List.mem_cons_of_mem _ (ih h)

theorem sum_undefined {xs : List Expr} (h : undefined ∈ xs) : sum xs = undefined := by
  have hany : (flattenTerms xs).any (· = undefined) = true :=
    List.any_eq_true.2 ⟨undefined, mem_flattenTerms rfl h, by simp⟩
  rw [sum, hany, if_pos rfl]

theorem product_undefined {xs : List Expr} (h : undefined ∈ xs) : product xs = undefined := by
  have hany : (flattenFactors xs).any (· = undefined) = true :=
    List.any_eq_true.2 ⟨undefined, mem_flattenFactors rfl h, by simp⟩
  obtain ⟨k, hk⟩ := roundsFor_eq (sizeAll xs)
  rw [product, hk, productWithin, productStep, hany, if_pos rfl]

theorem power_undefined (x : Expr) : power undefined x = undefined := by
  obtain ⟨k, hk⟩ := roundsFor_eq (undefined.size + x.size)
  rw [power, hk, powerWithin]
  unfold powerStep
  rw [if_pos (.inl rfl)]

theorem apply_undefined (f : Func) : apply f undefined = undefined := by
  obtain ⟨k, hk⟩ := roundsFor_eq undefined.size
  rw [apply, hk, applyWithin, if_pos rfl]

/-- Operands are either all canonical, or one of them is undefined. -/
theorem all_canonical_or_undefined {xs : List Expr} (h : ∀ x ∈ xs, x = undefined ∨ Canonical x) :
    undefined ∈ xs ∨ ∀ x ∈ xs, Canonical x := by
  by_cases hu : undefined ∈ xs
  · exact .inl hu
  · exact .inr fun x hx => (h x hx).resolve_left fun heq => hu (heq ▸ hx)

theorem Built.canonical {x : Expr} (h : Built x) : x = undefined ∨ Canonical x := by
  induction h with
  | rat q => exact .inr (.rat q)
  | var s => exact .inr (.var s)
  | pi => exact .inr .pi
  | e => exact .inr .e
  | @call f x hx h ih =>
    rcases ih with rfl | ih
    · exact .inl (apply_undefined f)
    · exact .inr (h ▸ .call ih h)
  | sum _ ih =>
    rcases all_canonical_or_undefined ih with h | h
    · exact .inl (sum_undefined h)
    · exact .inr (sum_canonical h)
  | product _ ih =>
    rcases all_canonical_or_undefined ih with h | h
    · exact .inl (product_undefined h)
    · exact .inr (product_canonical h)
  | power _ n ih =>
    rcases ih with rfl | ih
    · exact .inl (power_undefined _)
    · exact power_canonical ih n

/-! ## Subtrees -/

theorem mem_subtreesAll {x : Expr} {xs : List Expr} (h : x ∈ subtreesAll xs) :
    ∃ y ∈ xs, x ∈ subtrees y := by
  induction xs with
  | nil => simp [subtreesAll] at h
  | cons y xs ih =>
    rw [subtreesAll, List.mem_append] at h
    rcases h with h | h
    · obtain ⟨z, hz, hx⟩ := ih h
      exact ⟨z, List.mem_cons_of_mem _ hz, hx⟩
    · exact ⟨y, List.mem_cons_self, h⟩

theorem Canonical.subtree {x : Expr} (h : Canonical x) : ∀ y ∈ x.subtrees, Canonical y := by
  have hself : ∀ {x : Expr}, Canonical x → ∀ y ∈ [x], Canonical y := fun h y hy =>
    List.mem_singleton.1 hy ▸ h
  induction h with
  | rat q => exact hself (.rat q)
  | var s => exact hself (.var s)
  | pi => exact hself .pi
  | e => exact hself .e
  | call hx h ih => exact List.forall_mem_cons.2 ⟨.call hx h, ih⟩
  | power hb hbase h0 h1 hlarge ih =>
    refine List.forall_mem_cons.2 ⟨.power hb hbase h0 h1 hlarge, fun y hy => ?_⟩
    exact (List.mem_append.1 hy).elim (hself (.rat _) y) (ih y)
  | product hfs hrow hlen ih =>
    refine List.forall_mem_cons.2 ⟨.product hfs hrow hlen, fun y hy => ?_⟩
    obtain ⟨f, hf, hy⟩ := mem_subtreesAll hy
    exact ih f hf y hy
  | @scaled c fs hfs hrow hc0 hc1 hne hlone ih =>
    refine List.forall_mem_cons.2 ⟨.scaled hfs hrow hc0 hc1 hne hlone, fun y hy => ?_⟩
    obtain ⟨f, hf, hy⟩ := mem_subtreesAll hy
    rcases List.mem_cons.1 hf with rfl | hf
    · exact hself (.rat c) y hy
    · exact ih f hf y hy
  | sum hts hrow hlen ih =>
    refine List.forall_mem_cons.2 ⟨.sum hts hrow hlen, fun y hy => ?_⟩
    obtain ⟨t, ht, hy⟩ := mem_subtreesAll hy
    exact ih t ht y hy

/-- The factors of a canonical product other than its coefficient have different bases. -/
theorem Canonical.bases {fs : List Expr} (h : Canonical (mul fs)) :
    ((fs.filter fun f => f.rat?.isNone).map factorBase).Nodup := by
  have hfilter {fs : List Expr} (hrow : FactorRow fs) : (fs.filter fun f => f.rat?.isNone) = fs :=
    List.filter_eq_self.2 fun f hf => by simp [hrow.notRat f hf]
  cases h with
  | product hfs hrow hlen =>
    rw [hfilter hrow]
    exact hrow.bases
  | @scaled c fs hfs hrow =>
    rw [List.filter_cons_of_neg (by simp [rat?]), hfilter hrow]
    exact hrow.bases

/-- Whatever sums, products and whole powers build is undefined or stable: built anew it is the same tree, and no
product in it has two factors with the same base, its coefficient apart. -/
theorem built_stable {x : Expr} (h : Built x) (hx : x ≠ undefined) :
    x.rebuild = x ∧ ∀ fs, mul fs ∈ x.subtrees →
      ((fs.filter fun f => f.rat?.isNone).map factorBase).Nodup := by
  have hcanon := h.canonical.resolve_left hx
  exact ⟨hcanon.rebuild, fun fs hfs => (hcanon.subtree _ hfs).bases⟩

/-- Reading in its three steps. -/
theorem read_eq {s : String} {ts out : List Token} {t : Token} {x : Except Error Expr}
    (htokens : Token.tokenize s = .ok (t :: ts)) (hparsed : Postfix.ofInfix (t :: ts) = .ok out)
    (hvalue : Postfix.toExpr out = x) : Expr.read s = x := by
  rw [Expr.read, htokens]
  dsimp only
  rw [hparsed]
  exact hvalue

end Expr

/-! ## Formulas -/

namespace Postfix

open SymbolicSolver.Expr (Built)

/-- Formulas with whole exponents, without `I` and `oo`, whose functions find no other form for their calls. -/
inductive Tree.Whole : Tree → Prop
  | number (q : Rat) : Whole (.number q)
  | atom {s : String} {h : isFunctionName s = false} (hi : s ≠ "I") (hoo : s ≠ "oo") : Whole (.atom s h)
  | call {f : Func} {s : String} {h : isFunctionName s = true} {x : Tree} (hx : Whole x)
      (hname : call? s x.value = some (Expr.apply f x.value))
      (hkept : Expr.apply f x.value = .fn f x.value) : Whole (.call s h x)
  | negate {x : Tree} (hx : Whole x) : Whole (.negate x)
  | binary {op : Operator} {a b : Tree} (hop : op ≠ .power) (ha : Whole a) (hb : Whole b) :
      Whole (.binary op a b)
  | power {a b : Tree} {n : Int} (ha : Whole a) (hb : b.value = .rat n) :
      Whole (.binary .power a b)

theorem built_negate {x : Expr} (h : Built x) : Built (-x) :=
  .product (List.forall_mem_cons.2 ⟨.rat _, by simpa using h⟩)

theorem built_inverse {x : Expr} (h : Built x) : Built x.inverse := by
  have hpower := h.power (-1)
  rwa [Int.cast_neg, Int.cast_one] at hpower

theorem Tree.Whole.built {t : Tree} (h : t.Whole) : Built t.value := by
  induction h with
  | number q => exact .rat q
  | @atom s hs hi hoo =>
    rw [Tree.value, Postfix.atom, if_neg hi, if_neg hoo]
    split
    · exact .pi
    · split
      · exact .e
      · exact .var s
  | @call f s hs x hx hname hkept ih =>
    have hvalue : (Tree.call s hs x).value = Expr.apply f x.value := by
      simp [Tree.value, hname]
    exact hvalue ▸ .call ih hkept
  | negate hx ih => exact built_negate ih
  | @binary op a b hop ha hb iha ihb =>
    cases op with
    | plus => exact .sum (by simpa using ⟨iha, ihb⟩)
    | minus => exact .sum (by simpa using ⟨iha, built_negate ihb⟩)
    | times => exact .product (by simpa using ⟨iha, ihb⟩)
    | divide => exact .product (by simpa using ⟨iha, built_inverse ihb⟩)
    | power => exact absurd rfl hop
  | @power a b n ha hb ih =>
    have hvalue : (Tree.binary .power a b).value = Expr.power a.value (.rat n) := by
      rw [← hb]
      rfl
    exact hvalue ▸ .power ih n

/-- What a formula with whole exponents is read to is undefined or stable. -/
theorem Tree.Whole.stable {t : Tree} (h : t.Whole) (hx : t.value ≠ .undefined) :
    t.value.rebuild = t.value :=
  (h.built.canonical.resolve_left hx).rebuild

end Postfix

end SymbolicSolver
