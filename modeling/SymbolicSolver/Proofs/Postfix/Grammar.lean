import SymbolicSolver.Postfix

/-!
# The grammar of formulas

Which rows of tokens are formulas, and which tree each of them has. Sums and products associate to the left and powers
to the right; a sign stands before an operand and binds weaker than a power, but stronger than a product, and a plus
sign before an operand leaves no trace. A tree has a listing in postfix order and a value, and evaluating the listing
gives the value. What can be evaluated is the listing of one tree.
-/

namespace SymbolicSolver.Postfix

open Token

/-! ## Trees -/

/-- The operators between two operands. -/
inductive Operator where
  | plus | minus | times | divide | power

namespace Operator

def token : Operator → Token
  | plus => .plus
  | minus => .minus
  | times => .times
  | divide => .divide
  | power => .caret

/-- The canonical constructor of an operator. -/
def apply : Operator → Expr → Expr → Expr
  | plus, a, b => a + b
  | minus, a, b => a - b
  | times, a, b => a * b
  | divide, a, b => a / b
  | power, a, b => Expr.power a b

def isAdditive : Operator → Bool
  | plus | minus => true
  | _ => false

def isMultiplicative : Operator → Bool
  | times | divide => true
  | _ => false

end Operator

theorem call?_isSome {s : String} (h : isFunctionName s = true) (x : Expr) :
    (call? s x).isSome = true := by
  unfold call?
  split
  · rfl
  · split
    · rfl
    · simp_all [isFunctionName]

/-- The tree of a formula. A name is that of a function exactly where it is applied. -/
inductive Tree where
  | number (q : Rat)
  | atom (s : String) (h : isFunctionName s = false)
  | call (s : String) (h : isFunctionName s = true) (arg : Tree)
  | negate (x : Tree)
  | binary (op : Operator) (a b : Tree)

namespace Tree

/-- The tokens in postfix order: operands before their operator, an argument before its function. -/
def listing : Tree → List Token
  | number q => [.number q]
  | atom s _ => [name s]
  | call s _ x => x.listing ++ [name s]
  | negate x => x.listing ++ [Token.negate]
  | binary op a b => a.listing ++ b.listing ++ [op.token]

/-- The canonical constructors, applied along the tree. -/
def value : Tree → Expr
  | number q => .rat q
  | atom s _ => Postfix.atom s
  | call s h x => (call? s x.value).get (call?_isSome h x.value)
  | negate x => -x.value
  | binary op a b => op.apply a.value b.value

end Tree

/-! ## Formulas -/

/-- The levels of the grammar, the one that binds weakest first. -/
inductive Level where
  | sum | term | signed | power | atom

/-- The rows of tokens of each level, with their trees. -/
inductive Derives : Level → List Token → Tree → Prop
  | sum {ts : List Token} {t : Tree} (h : Derives .term ts t) : Derives .sum ts t
  | add {ts us : List Token} {t u : Tree} {op : Operator} (hop : op.isAdditive = true)
      (ht : Derives .sum ts t) (hu : Derives .term us u) :
      Derives .sum (ts ++ op.token :: us) (.binary op t u)
  | term {ts : List Token} {t : Tree} (h : Derives .signed ts t) : Derives .term ts t
  | multiply {ts us : List Token} {t u : Tree} {op : Operator} (hop : op.isMultiplicative = true)
      (ht : Derives .term ts t) (hu : Derives .signed us u) :
      Derives .term (ts ++ op.token :: us) (.binary op t u)
  | signed {ts : List Token} {t : Tree} (h : Derives .power ts t) : Derives .signed ts t
  | minusSign {ts : List Token} {t : Tree} (h : Derives .signed ts t) :
      Derives .signed (minus :: ts) (.negate t)
  | plusSign {ts : List Token} {t : Tree} (h : Derives .signed ts t) : Derives .signed (plus :: ts) t
  | power {ts : List Token} {t : Tree} (h : Derives .atom ts t) : Derives .power ts t
  | raise {ts us : List Token} {t u : Tree} (ht : Derives .atom ts t) (hu : Derives .signed us u) :
      Derives .power (ts ++ caret :: us) (.binary .power t u)
  | number (q : Rat) : Derives .atom [number q] (.number q)
  | name (s : String) (h : isFunctionName s = false) : Derives .atom [name s] (.atom s h)
  | paren {ts : List Token} {t : Tree} (h : Derives .sum ts t) :
      Derives .atom (leftParen :: (ts ++ [rightParen])) t
  | call {ts : List Token} {t : Tree} (s : String) (h : isFunctionName s = true)
      (ht : Derives .sum ts t) :
      Derives .atom (name s :: leftParen :: (ts ++ [rightParen])) (.call s h t)

/-! ## Evaluating a listing -/

theorem evalStep_operator (op : Operator) (a b : Expr) (stack : List Expr) :
    evalStep (b :: a :: stack) op.token = some (op.apply a b :: stack) := by
  cases op <;> rfl

/-- A listing leaves the value of its tree on the stack. -/
theorem foldlM_listing (t : Tree) (stack : List Expr) (rest : List Token) :
    (t.listing ++ rest).foldlM evalStep stack = rest.foldlM evalStep (t.value :: stack) := by
  induction t generalizing stack rest with
  | number q => rfl
  | atom s h => simp [Tree.listing, Tree.value, evalStep, h]
  | call s h x ih =>
    have hstep : evalStep (x.value :: stack) (name s) = some ((Tree.call s h x).value :: stack) := by
      simp [evalStep, h, Tree.value]
    rw [Tree.listing, List.append_assoc, ih]
    simp [hstep]
  | negate x ih =>
    rw [Tree.listing, List.append_assoc, ih]
    rfl
  | binary op a b iha ihb =>
    rw [Tree.listing, List.append_assoc, List.append_assoc, iha, ihb]
    simp [evalStep_operator, Tree.value]

/-- Evaluating a listing gives the value of its tree. -/
theorem toExpr_listing (t : Tree) : toExpr t.listing = .ok t.value := by
  have h := foldlM_listing t [] []
  rw [List.append_nil] at h
  rw [toExpr, h]
  rfl

/-! ## The tree of a listing -/

/-- One step of evaluation that keeps the trees, the newest first. -/
def build (stack : List Tree) (t : Token) : Option (List Tree) :=
  match t, stack with
  | number q, us => some (.number q :: us)
  | name s, us =>
    if h : isFunctionName s = true then
      match us with
      | x :: us => some (.call s h x :: us)
      | [] => none
    else some (.atom s (Bool.not_eq_true _ ▸ h) :: us)
  | negate, x :: us => some (.negate x :: us)
  | plus, b :: a :: us => some (.binary .plus a b :: us)
  | minus, b :: a :: us => some (.binary .minus a b :: us)
  | times, b :: a :: us => some (.binary .times a b :: us)
  | divide, b :: a :: us => some (.binary .divide a b :: us)
  | caret, b :: a :: us => some (.binary .power a b :: us)
  | _, _ => none

/-- What is evaluated has trees. -/
theorem build_of_evalStep {us : List Tree} {t : Token} {xs : List Expr} (h : evalStep (us.map Tree.value) t = some xs) :
    ∃ vs, build us t = some vs ∧ vs.map Tree.value = xs := by
  cases t with
  | number q => exact ⟨_, rfl, Option.some.inj h⟩
  | name s =>
    by_cases hs : isFunctionName s = true
    · rcases us with - | ⟨u, us⟩
      · simp [evalStep, hs] at h
      · simp only [evalStep, List.map_cons, hs, if_true, Option.map_eq_some_iff] at h
        obtain ⟨y, hy, rfl⟩ := h
        exact ⟨.call s hs u :: us, by simp [build, hs], by simp [Tree.value, hy]⟩
    · simp only [evalStep, hs, Bool.false_eq_true, if_false, Option.some.injEq] at h
      exact ⟨.atom s (Bool.not_eq_true _ ▸ hs) :: us, by simp [build, hs], h⟩
  | negate =>
    cases us with
    | nil => cases h
    | cons u us => exact ⟨_, rfl, Option.some.inj h⟩
  | leftParen => rcases us with - | ⟨b, - | ⟨a, us⟩⟩ <;> cases h
  | rightParen => rcases us with - | ⟨b, - | ⟨a, us⟩⟩ <;> cases h
  | _ =>
    rcases us with - | ⟨b, - | ⟨a, us⟩⟩
    · cases h
    · cases h
    · exact ⟨_, rfl, Option.some.inj h⟩

theorem listings_of_build {us vs : List Tree} {t : Token} (h : build us t = some vs) :
    vs.reverse.flatMap Tree.listing = us.reverse.flatMap Tree.listing ++ [t] := by
  unfold build at h
  split at h
  next => exact Option.some.inj h ▸ by simp [Tree.listing]
  next us s =>
    split at h
    · split at h
      · exact Option.some.inj h ▸ by simp [Tree.listing]
      · cases h
    · exact Option.some.inj h ▸ by simp [Tree.listing]
  all_goals first | exact Option.some.inj h ▸ by simp [Tree.listing, Operator.token] | cases h

theorem listings_of_foldlM {ts : List Token} {us : List Tree} {xs : List Expr}
    (h : ts.foldlM evalStep (us.map Tree.value) = some xs) : ∃ vs : List Tree, vs.map Tree.value = xs ∧
      vs.reverse.flatMap Tree.listing = us.reverse.flatMap Tree.listing ++ ts := by
  induction ts generalizing us with
  | nil => exact ⟨us, Option.some.inj h, by simp⟩
  | cons t ts ih =>
    rw [List.foldlM_cons] at h
    obtain ⟨ys, hstep, hrest⟩ := Option.bind_eq_some_iff.1 h
    obtain ⟨vs, hbuild, rfl⟩ := build_of_evalStep hstep
    obtain ⟨ws, hvalues, hlist⟩ := ih hrest
    exact ⟨ws, hvalues, by rw [hlist, listings_of_build hbuild, List.append_assoc]; rfl⟩

/-- What can be evaluated is the listing of a tree. -/
theorem exists_listing {ts : List Token} {x : Expr} (h : toExpr ts = .ok x) :
    ∃ t : Tree, t.listing = ts ∧ t.value = x := by
  unfold toExpr at h
  split at h
  next y hy =>
    obtain rfl := Except.ok.inj h
    obtain ⟨vs, hvalues, hlist⟩ := @listings_of_foldlM ts [] _ hy
    obtain ⟨t, rfl, hvalue⟩ := List.map_eq_singleton_iff.1 hvalues
    exact ⟨t, by simpa using hlist, hvalue⟩
  next => cases h

end SymbolicSolver.Postfix
