import SymbolicSolver.Proofs.Canonical.Shallow
import SymbolicSolver.Proofs.Postfix.Acceptance
import SymbolicSolver.Proofs.Printer.Spelling

/-!
# The limit on pending tokens limits the depth

The reader refuses a text only for what is pending between two tokens, while the tree is built later, from the postfix
sequence. In a row without adjacent operands the one bounds the other. Each pending operator holds back its left operand,
and how many levels this may have depends only on the room that is left when the operator becomes pending: the less room,
the less can still be built to its right. The bounds double with each place, because a power has the levels of its base
and of its exponent.

A function name that follows an operand is applied to it at once and leaves nothing pending, so adjacent operands build
trees of any depth: `x sin() sin()` is read as the sine of the sine of `x`, whatever the limit.
-/

namespace SymbolicSolver.Postfix

open Token
open Expr hiding negate

/-! ## How many levels fit -/

/-- The number of levels of a value to the right of which this many tokens may still become pending. -/
def allowance : Nat → Nat
  | 0 => 0
  | n + 1 => 2 * allowance n + 4

/-- The depth that no expression exceeds in which no two operands are adjacent. -/
def depthLimit : Nat := 3 * allowance (maxPending + 1) + 4

theorem allowance_succ (n : Nat) : allowance (n + 1) = 2 * allowance n + 4 := rfl

/-- The values that a postfix sequence leaves; its newest token comes first. -/
def values (output : List Token) : Option (List Expr) := output.reverse.foldlM evalStep []

theorem values_cons (t : Token) (output : List Token) :
    values (t :: output) = (values output).bind fun stack => evalStep stack t := by
  simp [values, List.foldlM_append]

/-- The pending tokens and the left operands that wait for them, the newest first, when room is left for `n` more tokens
besides. A left operand of `^` has just been read, one of a product may be a product, one of a sum a sum. -/
inductive Waits : Nat → List Token → List Expr → Prop
  | nil : Waits (maxPending + 1) [] []
  | mark {n : Nat} {t : Token} {pending : List Token} {stack : List Expr}
      (ht : t = leftParen ∨ t = negate ∨ isFunction t = true) (h : Waits (n + 1) pending stack) :
      Waits n (t :: pending) stack
  | power {n : Nat} {a : Expr} {pending : List Token} {stack : List Expr}
      (ha : termNesting a ≤ allowance n + 3) (h : Waits (n + 1) pending stack) :
      Waits n (caret :: pending) (a :: stack)
  | factor {n : Nat} {op : Token} {a : Expr} {pending : List Token} {stack : List Expr}
      (hop : op = Token.times ∨ op = divide) (ha : termNesting a ≤ allowance (n + 1))
      (h : Waits (n + 1) pending stack) : Waits n (op :: pending) (a :: stack)
  | term {n : Nat} {op : Token} {a : Expr} {pending : List Token} {stack : List Expr}
      (hop : op = plus ∨ op = minus) (ha : sumNesting a ≤ allowance (n + 1))
      (h : Waits (n + 1) pending stack) : Waits n (op :: pending) (a :: stack)

namespace Waits

variable {n : Nat} {t : Token} {pending : List Token} {stack : List Expr}

/-- Room is counted down from the limit. -/
theorem room (h : Waits n pending stack) : n + pending.length = maxPending + 1 := by
  induction h with
  | nil => rfl
  | mark _ _ ih | power _ _ ih | factor _ _ _ ih | term _ _ _ ih =>
    rw [List.length_cons]
    omega

/-- An opening parenthesis or a function holds nothing back. -/
theorem unmark (h : Waits n (t :: pending) stack) (ht : t = leftParen ∨ isFunction t = true) :
    Waits (n + 1) pending stack := by
  cases h with
  | mark _ h => exact h
  | power => simp [isFunction] at ht
  | factor hop | term hop => rcases hop with rfl | rfl <;> simp [isFunction] at ht

end Waits

/-! ## Completing pending operators -/

/-- A called function adds at most two levels. -/
theorem call?_nesting {s : String} {x y : Expr} {k : Nat} (h : call? s x = some y)
    (hx : sumNesting x ≤ k) : termNesting y ≤ k + 3 := by
  have hterm := termNesting_le_sumNesting x
  unfold call? at h
  split at h
  · obtain rfl := Option.some.inj h
    have := sqrt_nesting x
    omega
  · split at h
    · obtain rfl := Option.some.inj h
      have := exp_nesting x
      omega
    · obtain ⟨f, -, rfl⟩ := Option.map_eq_some_iff.1 h
      exact apply_nesting f (k := k + 1) (by omega) (by omega)

/-- A pending token that comes off is applied to the newest value, and the result fits in the place of what was there
before. Unless the token is that of a sum, the result fits as a factor too. -/
theorem Waits.complete {n : Nat} {t : Token} {pending : List Token} {stack : List Expr} {v : Expr}
    (h : Waits n (t :: pending) stack) (ht : t ≠ leftParen) (hv : sumNesting v ≤ allowance n) :
    ∃ w rest, evalStep (v :: stack) t = some (w :: rest) ∧ Waits (n + 1) pending rest ∧
      sumNesting w ≤ allowance (n + 1) ∧ (2 ≤ binding t → termNesting w ≤ allowance (n + 1)) := by
  have hroom := allowance_succ n
  have hterm := termNesting_le_sumNesting v
  -- what fits as a factor fits as a term
  have hfits {w : Expr} (hw : termNesting w ≤ allowance (n + 1)) :
      sumNesting w ≤ allowance (n + 1) ∧ (2 ≤ binding t → termNesting w ≤ allowance (n + 1)) :=
    ⟨Nat.le_trans (sumNesting_le_termNesting w) hw, fun _ => hw⟩
  have hneg : termNesting (-v) ≤ allowance n + 1 := neg_nesting (by omega) (by omega)
  cases h with
  | mark hmark h =>
    rcases hmark with rfl | rfl | hf
    · exact absurd rfl ht
    · exact ⟨-v, stack, rfl, h, hfits (by omega)⟩
    · cases t with
      | name s =>
        have hs : isFunctionName s = true := hf
        obtain ⟨w, hw⟩ := Option.isSome_iff_exists.1 (call?_isSome hs v)
        have hnesting := call?_nesting hw hv
        exact ⟨w, stack, by simp [evalStep, hs, hw], h, hfits (by omega)⟩
      | _ => simp [isFunction] at hf
  | @power _ a _ rest ha h =>
    have hpower := power_nesting a v
    have := sumNesting_le_termNesting a
    exact ⟨Expr.power a v, rest, rfl, h, hfits (by omega)⟩
  | @factor _ op a _ rest hop ha h =>
    have hproduct {w : Expr} (hw : termNesting w ≤ allowance (n + 1)) :
        termNesting (product [a, w]) ≤ allowance (n + 1) :=
      product_nesting (by simpa using ⟨ha, hw⟩) (by omega)
    rcases hop with rfl | rfl
    · exact ⟨a * v, rest, rfl, h, hfits (hproduct (by omega))⟩
    · have := inverse_nesting v
      exact ⟨a / v, rest, rfl, h, hfits (hproduct (by omega))⟩
  | @term _ op a _ rest hop ha h =>
    have hsum {w : Expr} (hw : sumNesting w ≤ allowance (n + 1)) :
        sumNesting (sum [a, w]) ≤ allowance (n + 1) :=
      sum_nesting (by simpa using ⟨ha, hw⟩) (by omega)
    rcases hop with rfl | rfl
    · exact ⟨a + v, rest, rfl, h, hsum (by omega), by simp [binding]⟩
    · have := sumNesting_le_termNesting (-v)
      exact ⟨a - v, rest, rfl, h, hsum (by omega), by simp [binding]⟩

/-- An operator takes the newest value as its left operand once what binds before it is complete. -/
def Ready (op : Token) (n : Nat) (v : Expr) : Prop :=
  (op = caret → termNesting v ≤ allowance n + 3) ∧
    (2 ≤ binding op → termNesting v ≤ allowance (n + 1)) ∧ sumNesting v ≤ allowance (n + 1)

/-- A value that has just been read is ready for every operator. -/
theorem ready_of_read (op : Token) {n : Nat} {v : Expr} (h : termNesting v ≤ allowance n + 3) :
    Ready op n v := by
  have := allowance_succ n
  have := sumNesting_le_termNesting v
  exact ⟨fun _ => h, fun _ => by omega, by omega⟩

theorem Ready.waits {op : Token} (hop : isBinary op = true) {n : Nat} {v : Expr}
    (h : Ready op n v) {pending : List Token} {stack : List Expr} (hw : Waits (n + 1) pending stack) :
    Waits n (op :: pending) (v :: stack) := by
  obtain ⟨hpower, hfactor, hterm⟩ := h
  cases op with
  | caret => exact .power (hpower rfl) hw
  | times => exact .factor (.inl rfl) (hfactor (by decide)) hw
  | divide => exact .factor (.inr rfl) (hfactor (by decide)) hw
  | plus => exact .term (.inl rfl) hterm hw
  | minus => exact .term (.inr rfl) hterm hw
  | _ => simp [isBinary] at hop

/-- A binary operator finds its left operand. The induction is on the pending tokens, each of which is completed as long as
it binds before the operator. -/
theorem waits_popOperators {op : Token} (hop : isBinary op = true) {pending output : List Token}
    {stack : List Expr} {v : Expr} {n : Nat} (hvalues : values output = some (v :: stack))
    (hwaits : Waits (n + 1) pending stack) (hready : Ready op n v) :
    ∃ m rest, values (popOperators op pending output).2 = some rest ∧
      Waits m (op :: (popOperators op pending output).1) rest := by
  fun_induction popOperators op pending output generalizing stack v n with
  | case1 output => exact ⟨n, v :: stack, hvalues, hready.waits hop hwaits⟩
  | case2 t pending output => exact ⟨n, v :: stack, hvalues, hready.waits hop hwaits⟩
  | case3 t pending output hstop hbinds ih =>
    have hparen : t ≠ leftParen := by
      rintro rfl
      simp at hstop
    obtain ⟨w, rest, hstep, hrest, hterm, hfactor⟩ := hwaits.complete hparen hready.2.2
    refine ih (by rw [values_cons, hvalues]; exact hstep) hrest ⟨?_, fun hbinding => ?_, hterm⟩
    · -- nothing binds before a power
      rintro rfl
      have := binding_le t
      have hcaret : binding caret = 4 := rfl
      simp [isRightAssociative] at hbinds
      omega
    · refine hfactor (Nat.le_trans hbinding ?_)
      simp only [Bool.or_eq_true, Bool.and_eq_true, decide_eq_true_eq] at hbinds
      omega
  | case4 t pending output => exact ⟨n, v :: stack, hvalues, hready.waits hop hwaits⟩

/-- What stands behind an opening parenthesis is completed into one value. -/
theorem waits_popToParen {pending output pending' output' : List Token} {stack : List Expr} {v : Expr}
    {n : Nat} (h : popToParen pending output = some (pending', output'))
    (hvalues : values output = some (v :: stack)) (hwaits : Waits n pending stack)
    (hv : sumNesting v ≤ allowance n) :
    ∃ m w rest, values output' = some (w :: rest) ∧ Waits m (leftParen :: pending') rest ∧
      sumNesting w ≤ allowance m := by
  fun_induction popToParen pending output generalizing stack v n with
  | case1 => simp at h
  | case2 pending output =>
    obtain ⟨rfl, rfl⟩ := Prod.mk.inj (Option.some.inj h)
    exact ⟨n, v, stack, hvalues, hwaits, hv⟩
  | case3 t pending output ht ih =>
    obtain ⟨w, rest, hstep, hrest, hterm, -⟩ := hwaits.complete (fun heq => ht heq) hv
    exact ih h (by rw [values_cons, hvalues]; exact hstep) hrest hterm

/-- At the end everything is completed into one value. -/
theorem values_flush {pending output r : List Token} {stack : List Expr} {v : Expr} {n : Nat}
    (h : flush pending output = .ok r) (hvalues : values output = some (v :: stack))
    (hwaits : Waits n pending stack) (hv : sumNesting v ≤ allowance n) :
    ∃ w, r.foldlM evalStep [] = some [w] ∧ sumNesting w ≤ allowance (maxPending + 1) := by
  fun_induction flush pending output generalizing stack v n with
  | case1 output =>
    obtain rfl := Except.ok.inj h
    cases hwaits
    exact ⟨v, hvalues, hv⟩
  | case2 => simp at h
  | case3 t pending output ht ih =>
    obtain ⟨w, rest, hstep, hrest, hterm, -⟩ := hwaits.complete (fun heq => ht heq) hv
    exact ih h (by rw [values_cons, hvalues]; exact hstep) hrest hterm

/-! ## Reading -/

/-- Between two tokens: what waits for the pending tokens fits the room left, and so does the operand that has just ended,
if one has. -/
def State.Fits (s : State) : Prop :=
  ∃ n stack, values s.output = some stack ∧
    if s.afterValue then
      ∃ v rest, stack = v :: rest ∧ termNesting v ≤ allowance n + 3 ∧ Waits (n + 1) s.pending rest
    else Waits n s.pending stack

theorem fits_initial : State.initial.Fits := ⟨maxPending + 1, [], rfl, .nil⟩

theorem fits_pushOperator {s : State} (hs : s.Fits) (hv : s.afterValue = true) {op : Token}
    (hop : isBinary op = true) : (pushOperator s op).Fits := by
  obtain ⟨n, stack, hvalues, hfits⟩ := hs
  rw [if_pos hv] at hfits
  obtain ⟨v, rest, rfl, hnesting, hwaits⟩ := hfits
  obtain ⟨m, rest', hvalues', hwaits'⟩ :=
    waits_popOperators hop hvalues hwaits (ready_of_read op hnesting)
  exact ⟨m, rest', hvalues', hwaits'⟩

theorem fits_closeParen {s s' : State} (hs : s.Fits) (hv : s.afterValue = true)
    (h : closeParen s = .ok s') : s'.Fits := by
  obtain ⟨n, stack, hvalues, hfits⟩ := hs
  rw [if_pos hv] at hfits
  obtain ⟨v, rest, rfl, hnesting, hwaits⟩ := hfits
  have hnesting : sumNesting v ≤ allowance (n + 1) := (ready_of_read leftParen hnesting).2.2
  unfold closeParen at h
  split at h
  · simp at h
  · rename_i f pending output hpop
    obtain ⟨m, w, stack, hvalues, hwaits, hw⟩ := waits_popToParen hpop hvalues hwaits hnesting
    have hinside := hwaits.unmark (.inl rfl)
    have := termNesting_le_sumNesting w
    split at h
    · rename_i hf
      obtain rfl := Except.ok.inj h
      cases f with
      | name f =>
        have hf : isFunctionName f = true := hf
        obtain ⟨y, hy⟩ := Option.isSome_iff_exists.1 (call?_isSome hf w)
        have hroom := allowance_succ m
        have hcalled := call?_nesting hy hw
        refine ⟨m + 1, y :: stack, ?_, y, stack, rfl, by omega, hinside.unmark (.inr hf)⟩
        rw [values_cons, hvalues]
        simp [evalStep, hf, hy]
      | _ => simp [isFunction] at hf
    · obtain rfl := Except.ok.inj h
      exact ⟨m, w :: stack, hvalues, w, stack, rfl, by omega, hinside⟩
  · rename_i output hpop
    obtain ⟨m, w, stack, hvalues, hwaits, hw⟩ := waits_popToParen hpop hvalues hwaits hnesting
    have := termNesting_le_sumNesting w
    obtain rfl := Except.ok.inj h
    exact ⟨m, w :: stack, hvalues, w, stack, rfl, by omega, hwaits.unmark (.inl rfl)⟩

/-- Where an operand must follow, there is room for one more pending token unless too many are pending. -/
theorem State.Fits.waits {s : State} (hs : s.Fits) (hv : s.afterValue = false)
    (hlen : s.pending.length ≤ maxPending) :
    ∃ n stack, values s.output = some stack ∧ Waits (n + 1) s.pending stack := by
  obtain ⟨n, stack, hvalues, hfits⟩ := hs
  have hwaits : Waits n s.pending stack := by simpa [hv] using hfits
  have := hwaits.room
  obtain ⟨m, rfl⟩ : ∃ m, n = m + 1 := ⟨n - 1, by omega⟩
  exact ⟨m, stack, hvalues, hwaits⟩

/-- Every token in its place leaves a state that fits. -/
theorem fits_step {s s' : State} (hs : s.Fits) (hlen : s.pending.length ≤ maxPending) {t : Token}
    {parenFollows a : Bool} {d d' : Nat} (h : Next s.afterValue d t a d')
    (hstep : step s t parenFollows = .ok s') : s'.afterValue = a ∧ s'.Fits := by
  have hpush {u : Token} (hu : u = leftParen ∨ u = negate ∨ isFunction u = true)
      (hv : s.afterValue = false) : (s.push u).Fits := by
    obtain ⟨n, stack, hvalues, hwaits⟩ := hs.waits hv hlen
    exact ⟨n, stack, hvalues, .mark hu hwaits⟩
  have hemit {u : Token} {x : Expr} (hu : ∀ stack, evalStep stack u = some (x :: stack))
      (hx : termNesting x ≤ 1) (hv : s.afterValue = false) : (s.emit u).Fits := by
    obtain ⟨n, stack, hvalues, hwaits⟩ := hs.waits hv hlen
    refine ⟨n, x :: stack, ?_, x, stack, rfl, by omega, hwaits⟩
    show values (u :: s.output) = _
    rw [values_cons, hvalues]
    exact hu stack
  generalize hv : s.afterValue = v at h
  cases h with
  | number q =>
    obtain rfl := Except.ok.inj hstep
    exact ⟨rfl, hemit (x := .rat q) (fun _ => rfl) (Nat.zero_le 1) hv⟩
  | @atom n hn =>
    simp only [step, hn, Bool.false_eq_true, if_false] at hstep
    split at hstep
    · simp at hstep
    · obtain rfl := Except.ok.inj hstep
      have hatom : termNesting (atom n) ≤ 1 := by
        unfold atom
        repeat' split
        all_goals exact Nat.le_refl 1
      exact ⟨rfl, hemit (fun stack => by simp [evalStep, hn]) hatom hv⟩
  | @call n hn =>
    simp only [step, hn, if_true] at hstep
    obtain rfl := Except.ok.inj hstep
    exact ⟨rfl, hpush (.inr (.inr hn)) hv⟩
  | @sign t ht =>
    cases t with
    | plus =>
      obtain rfl : s = s' := by simpa [step, hv] using hstep
      exact ⟨hv, hs⟩
    | minus =>
      obtain rfl : s.push negate = s' := by simpa [step, hv] using hstep
      exact ⟨rfl, hpush (.inr (.inl rfl)) hv⟩
    | _ => simp [isSign] at ht
  | opening =>
    obtain rfl := Except.ok.inj hstep
    exact ⟨rfl, hpush (.inl rfl) hv⟩
  | closing => exact ⟨(closeParen_spec hstep).1, fits_closeParen hs hv hstep⟩
  | @operator t ht =>
    have hoperator : step s t parenFollows = .ok (pushOperator s t) := by
      cases t <;> simp_all [isBinary, step]
    obtain rfl := Except.ok.inj (hoperator.symm.trans hstep)
    exact ⟨rfl, fits_pushOperator hs hv ht⟩

/-- A row of tokens in their places is read to a state that fits, after an operand. -/
theorem fits_run {s s' : State} {d : Nat} {ts : List Token} (hs : s.Fits)
    (hlen : s.pending.length ≤ maxPending) (h : Placed s.afterValue d ts) (hrun : run s ts = .ok s') :
    s'.afterValue = true ∧ s'.Fits := by
  induction ts generalizing s d with
  | nil =>
    obtain rfl := Except.ok.inj hrun
    generalize hv : s.afterValue = v at h
    cases h
    exact ⟨rfl, hs⟩
  | cons t ts ih =>
    rw [run] at hrun
    split at hrun
    · simp at hrun
    · rename_i s₁ hstep
      split at hrun
      · simp at hrun
      · generalize hv : s.afterValue = v at h
        cases h with
        | next ht hrest =>
          obtain ⟨hflag, hfits⟩ := fits_step hs hlen (hv ▸ ht) hstep
          exact ih hfits (by omega) (hflag ▸ hrest) hrun

/-! ## Calls after their argument -/

/-- The sine taken a number of times, of a variable. -/
def sines : Nat → Expr
  | 0 => var "x"
  | n + 1 => fn .sin (sines n)

theorem depth_sines (n : Nat) : (sines n).depth = n + 1 := by
  induction n with
  | zero => rfl
  | succ n ih => simp [sines, depth, ih]

/-- A sine has no simpler form at a variable or at a sine. -/
theorem apply_sin_sines (n : Nat) : apply .sin (sines n) = sines (n + 1) := by
  cases n with
  | zero => rfl
  | succ n => rfl

/-- A text that calls the sine a number of times, with nothing between the parentheses. -/
def emptyCalls (n : Nat) : List Char := (List.replicate n " sin()".toList).flatten

/-- Its tokens. -/
def emptyCallTokens (n : Nat) : List Token :=
  (List.replicate n [name "sin", leftParen, rightParen]).flatten

theorem scan_emptyCalls (n : Nat) : scan (emptyCalls n) = .ok (emptyCallTokens n) := by
  induction n with
  | zero => simp [emptyCalls, emptyCallTokens, scan]
  | succ n ih =>
    have hends : Ends ('(' :: ')' :: emptyCalls n) := by
      intro c hc
      obtain rfl : '(' = c := by simpa using hc
      decide
    have hletters : ∀ d ∈ ['i', 'n'], continuesName d = true :=
      List.forall_mem_cons.2 ⟨by decide, List.forall_mem_singleton.2 (by decide)⟩
    show scan (' ' :: 's' :: (['i', 'n'] ++ '(' :: ')' :: emptyCalls n)) = _
    rw [scan_blank (by decide), scan_name (by decide) hletters hends,
      scan_symbol (t := leftParen) rfl (by decide) (by simp),
      scan_symbol (t := rightParen) rfl (by decide) (by simp), ih]
    rfl

/-- Each call is complete as soon as it is read, so nothing stays pending. -/
theorem run_emptyCalls (n : Nat) (output : List Token) :
    run ⟨output, [], true⟩ (emptyCallTokens n) =
      .ok ⟨List.replicate n (name "sin") ++ output, [], true⟩ := by
  induction n generalizing output with
  | zero => rfl
  | succ n ih =>
    show run ⟨output, [], true⟩ (name "sin" :: leftParen :: rightParen :: emptyCallTokens n) = _
    have hcall : run ⟨output, [], true⟩ (name "sin" :: leftParen :: rightParen :: emptyCallTokens n) =
        run ⟨name "sin" :: output, [], true⟩ (emptyCallTokens n) := rfl
    rw [hcall, ih, List.replicate_succ', List.append_assoc]
    rfl

theorem values_emptyCalls (n : Nat) :
    values (List.replicate n (name "sin") ++ [name "x"]) = some [sines n] := by
  induction n with
  | zero => rfl
  | succ n ih =>
    rw [List.replicate_succ, List.cons_append, values_cons, ih]
    show (call? "sin" (sines n)).map (· :: []) = _
    have hcall : call? "sin" (sines n) = some (apply .sin (sines n)) := rfl
    rw [hcall, apply_sin_sines]
    rfl

theorem read_emptyCalls (n : Nat) : Expr.read (String.ofList ('x' :: emptyCalls n)) = .ok (sines n) := by
  have hends : Ends (emptyCalls n) := by
    cases n with
    | zero => exact ends_nil
    | succ n =>
      show Ends (' ' :: _)
      simp [Ends]
      decide
  have htokens : tokenize (String.ofList ('x' :: emptyCalls n)) = .ok (name "x" :: emptyCallTokens n) := by
    rw [tokenize, String.toList_ofList]
    show scan ('x' :: ([] ++ emptyCalls n)) = _
    rw [scan_name (by decide) (by simp) hends, scan_emptyCalls]
    rfl
  have hrun : run State.initial (name "x" :: emptyCallTokens n) =
      .ok ⟨List.replicate n (name "sin") ++ [name "x"], [], true⟩ := by
    -- a name is no call of a function, because no opening parenthesis follows
    cases n with
    | zero => rfl
    | succ n => exact run_emptyCalls (n + 1) [name "x"]
  rw [Expr.read, htokens]
  dsimp only
  rw [ofInfix, hrun]
  show toExpr (List.replicate n (name "sin") ++ [name "x"]).reverse = _
  rw [toExpr, ← values, values_emptyCalls]

/-! ## Expressions -/

/-- The value of an infix expression has no more levels than there is room for pending tokens. -/
theorem toExpr_nesting {ts r : List Token} {x : Expr} (h : Infix .expression ts)
    (hr : ofInfix ts = .ok r) (hx : toExpr r = .ok x) : sumNesting x ≤ allowance (maxPending + 1) := by
  rw [ofInfix] at hr
  split at hr
  · simp at hr
  · rename_i s hrun
    obtain ⟨hv, n, stack, hvalues, hfits⟩ :=
      fits_run fits_initial (Nat.zero_le _) (infix_iff_placed.1 h) hrun
    rw [if_pos hv] at hfits
    obtain ⟨v, rest, rfl, hnesting, hwaits⟩ := hfits
    obtain ⟨w, hw, hbound⟩ := values_flush hr hvalues hwaits (ready_of_read leftParen hnesting).2.2
    rw [toExpr, hw] at hx
    obtain rfl := Except.ok.inj hx
    exact hbound

/-- What is read of a text in which no two operands are adjacent is no deeper than the limit, however long the text. -/
theorem depth_le_limit {text : String} {ts : List Token} {x : Expr} (h : tokenize text = .ok ts)
    (hapart : ts.IsChain fun t u => ¬ Adjacent t u) (hx : Expr.read text = .ok x) :
    x.depth ≤ depthLimit := by
  rw [Expr.read, h] at hx
  cases ts with
  | nil => simp at hx
  | cons t ts =>
    dsimp only at hx
    split at hx
    · simp at hx
    · rename_i r hr
      have hinfix : Infix .expression (t :: ts) := by
        refine (infix_or_adjacent (negate_not_mem_scan h) hr hx).resolve_right ?_
        rintro ⟨before, u, v, after, heq, hadj⟩
        rw [heq] at hapart
        exact List.isChain_iff_forall_rel_of_append_cons_cons.1 hapart rfl hadj
      have hnesting := toExpr_nesting hinfix hr hx
      have hdepth := (depth_le_in_place (depth_le x)).2.1
      show depth x ≤ 3 * allowance (maxPending + 1) + 4
      omega

/-- The tokens of `sin(x)` are apart, and the text is read. -/
theorem depth_le_limit_call :
    ∃ ts x, tokenize "sin(x)" = .ok ts ∧ (ts.IsChain fun t u => ¬ Adjacent t u) ∧
      Expr.read "sin(x)" = .ok x ∧ x.depth ≤ depthLimit := by
  have htokens : tokenize "sin(x)" = .ok [name "sin", leftParen, name "x", rightParen] := by
    decide +kernel
  have hapart : [name "sin", leftParen, name "x", rightParen].IsChain fun t u => ¬ Adjacent t u := by
    simp [Adjacent, beginsOperand, endsOperand]
    decide
  have hread : Expr.read "sin(x)" = .ok (sines 1) := by
    rw [Expr.read, htokens]
    rfl
  exact ⟨_, _, htokens, hapart, hread, depth_le_limit htokens hapart hread⟩

/-- No depth is a limit for all texts. -/
theorem read_depth_unbounded : ¬ ∃ B, ∀ text x, Expr.read text = .ok x → x.depth ≤ B := by
  rintro ⟨B, hB⟩
  have hle := hB _ _ (read_emptyCalls B)
  rw [depth_sines] at hle
  omega

end SymbolicSolver.Postfix
