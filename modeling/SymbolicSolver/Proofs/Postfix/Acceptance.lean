import Mathlib.Algebra.BigOperators.Group.List.Basic
import Mathlib.Data.List.Chain
import SymbolicSolver.Proofs.Canonical.Product
import SymbolicSolver.Proofs.Postfix.Placement
import SymbolicSolver.Proofs.Postfix.Reading

/-!
# Which rows of tokens are accepted

The reader accepts every infix expression, unless too much is pending on the way. Of the other rows it refuses all in
which no two operands are adjacent: an operator that lacks an operand, an empty pair of parentheses or a missing end
leaves the postfix sequence one value short, and only a second operand in a row makes up for it. Adjacent operands can
do so: `1 2 +` is read as a sum.

Both statements count values. The tokens read so far will leave some number of values, and an operand that has just
ended accounts for one. In a row without adjacent operands the first number never grows against the second, and a
token out of place makes it fall behind for good.
-/

namespace SymbolicSolver.Postfix

open Token

/-! ## The number of values on the stack -/

/-- How many values a token of a postfix sequence takes off the stack; no parenthesis occurs there. -/
def arity? : Token → Option Nat
  | number _ => some 0
  | name s => if isFunctionName s then some 1 else some 0
  | negate => some 1
  | leftParen | rightParen => none
  | _ => some 2

theorem arity?_binary {t : Token} (h : isBinary t = true) : arity? t = some 2 := by
  cases t <;> first | rfl | simp [isBinary] at h

theorem arity?_function {t : Token} (h : isFunction t = true) : arity? t = some 1 := by
  cases t <;> simp_all [isFunction, arity?]

/-- The number of values after a token. -/
def heightStep (t : Token) (n : Nat) : Option Nat :=
  (arity? t).bind fun k => if k ≤ n then some (n - k + 1) else none

/-- The number of values that a postfix sequence leaves; its newest token comes first. -/
def height : List Token → Option Nat
  | [] => some 0
  | t :: out => (height out).bind (heightStep t)

/-- Evaluation succeeds exactly where there are enough values, and leaves as many as it should. -/
theorem length_evalStep (stack : List Expr) (t : Token) :
    (evalStep stack t).map List.length = heightStep t stack.length := by
  cases t with
  | number q => simp [evalStep, heightStep, arity?]
  | name s =>
    by_cases hs : isFunctionName s = true
    · cases stack with
      | nil => simp [evalStep, heightStep, arity?, hs]
      | cons x stack =>
        obtain ⟨y, hy⟩ := Option.isSome_iff_exists.1 (call?_isSome hs x)
        simp [evalStep, heightStep, arity?, hs, hy]
    · simp [evalStep, heightStep, arity?, hs]
  | negate => cases stack <;> simp [evalStep, heightStep, arity?]
  | plus | minus | times | divide | caret =>
    rcases stack with - | ⟨x, - | ⟨y, stack⟩⟩ <;>
      simp [evalStep, heightStep, arity?, combine?]
  | leftParen | rightParen =>
    rcases stack with - | ⟨x, - | ⟨y, stack⟩⟩ <;>
      simp [evalStep, heightStep, arity?, combine?]

theorem length_foldlM_evalStep (out : List Token) :
    (out.reverse.foldlM evalStep []).map List.length = height out := by
  induction out with
  | nil => rfl
  | cons t out ih =>
    rw [List.reverse_cons, List.foldlM_append, height, ← ih]
    cases out.reverse.foldlM evalStep [] with
    | none => rfl
    | some stack => simp [length_evalStep]

/-- A postfix sequence has a value exactly if it leaves one value. -/
theorem toExpr_isOk_iff (out : List Token) : (∃ x, toExpr out.reverse = .ok x) ↔ height out = some 1 := by
  rw [← length_foldlM_evalStep, toExpr]
  cases out.reverse.foldlM evalStep [] with
  | none => simp
  | some stack => rcases stack with - | ⟨x, - | ⟨y, stack⟩⟩ <;> simp

/-! ## What moves from the pending tokens to the output -/

theorem popToParen_spec {pending output pending' output' : List Token}
    (h : popToParen pending output = some (pending', output')) :
    ∃ ops, pending = ops ++ leftParen :: pending' ∧ output' = ops.reverse ++ output ∧
      leftParen ∉ ops := by
  fun_induction popToParen pending output with
  | case1 => simp at h
  | case2 pending output =>
    obtain ⟨rfl, rfl⟩ := Prod.mk.inj (Option.some.inj h)
    exact ⟨[], rfl, rfl, by simp⟩
  | case3 t pending output ht ih =>
    obtain ⟨ops, rfl, rfl, hops⟩ := ih h
    exact ⟨t :: ops, rfl, by simp, by simpa [hops] using fun heq => ht heq.symm⟩

theorem popToParen_isSome {pending : List Token} (h : leftParen ∈ pending) (output : List Token) :
    ∃ s, popToParen pending output = some s := by
  fun_induction popToParen pending output with
  | case1 => simp at h
  | case2 pending output => exact ⟨_, rfl⟩
  | case3 t pending output ht ih =>
    exact ih ((List.mem_cons.1 h).resolve_left fun heq => ht heq.symm)

theorem popOperators_spec (op : Token) (pending output : List Token) :
    ∃ ops, pending = ops ++ (popOperators op pending output).1 ∧
      (popOperators op pending output).2 = ops.reverse ++ output ∧ leftParen ∉ ops := by
  fun_induction popOperators op pending output with
  | case1 output => exact ⟨[], rfl, rfl, by simp⟩
  | case2 t pending output => exact ⟨[], rfl, rfl, by simp⟩
  | case3 t pending output hstop _ ih =>
    obtain ⟨ops, hpending, houtput, hops⟩ := ih
    refine ⟨t :: ops, by rw [List.cons_append, ← hpending], by simp [houtput], ?_⟩
    simp only [Bool.or_eq_true, decide_eq_true_eq, not_or] at hstop
    simpa [hops] using Ne.symm hstop.1
  | case4 t pending output => exact ⟨[], rfl, rfl, by simp⟩

theorem flush_eq_ok {pending output r : List Token} :
    flush pending output = .ok r ↔ leftParen ∉ pending ∧ r = (pending.reverse ++ output).reverse := by
  fun_induction flush pending output with
  | case1 output => simp [eq_comm]
  | case2 pending output => simp
  | case3 t pending output ht ih =>
    have hne : ¬ leftParen = t := fun heq => ht heq.symm
    simp [ih, hne]

/-- Closing a parenthesis moves what stands behind it to the output, and possibly the function before it. -/
theorem closeParen_spec {s s' : State} (h : closeParen s = .ok s') :
    s'.afterValue = true ∧ ∃ ops, leftParen ∉ ops ∧
      ((s.pending = ops ++ leftParen :: s'.pending ∧ s'.output = ops.reverse ++ s.output) ∨
        ∃ f, isFunction f = true ∧ s.pending = ops ++ leftParen :: f :: s'.pending ∧
          s'.output = f :: (ops.reverse ++ s.output)) := by
  unfold closeParen at h
  split at h
  · simp at h
  · rename_i f pending output hpop
    obtain ⟨ops, hpending, houtput, hops⟩ := popToParen_spec hpop
    split at h
    · rename_i hf
      obtain rfl := Except.ok.inj h
      exact ⟨rfl, ops, hops, .inr ⟨f, hf, hpending, by rw [houtput]⟩⟩
    · obtain rfl := Except.ok.inj h
      exact ⟨rfl, ops, hops, .inl ⟨hpending, houtput⟩⟩
  · rename_i output hpop
    obtain ⟨ops, hpending, houtput, hops⟩ := popToParen_spec hpop
    obtain rfl := Except.ok.inj h
    exact ⟨rfl, ops, hops, .inl ⟨hpending, houtput⟩⟩

/-! ## Rows without adjacent operands -/

/-- By how much a token changes the number of values. -/
def gain (t : Token) : Int :=
  match arity? t with
  | some k => 1 - k
  | none => 0

/-- By how much tokens change the number of values together. -/
def gains (ts : List Token) : Int := (ts.map gain).sum

@[simp] theorem gains_nil : gains [] = 0 := rfl

@[simp] theorem gains_cons (t : Token) (ts : List Token) : gains (t :: ts) = gain t + gains ts := by
  simp [gains]

@[simp] theorem gains_append (ts us : List Token) : gains (ts ++ us) = gains ts + gains us := by
  simp [gains]

@[simp] theorem gains_reverse (ts : List Token) : gains ts.reverse = gains ts := by
  simp [gains, List.sum_reverse]

theorem gain_binary {t : Token} (h : isBinary t = true) : gain t = -1 := by
  rw [gain, arity?_binary h]
  rfl

theorem gains_of_height {out : List Token} {n : Nat} (h : height out = some n) : gains out = n := by
  induction out generalizing n with
  | nil =>
    obtain rfl := Option.some.inj h
    rfl
  | cons t out ih =>
    obtain ⟨m, hm, hstep⟩ := Option.bind_eq_some_iff.1 h
    obtain ⟨k, hk, hn⟩ := Option.bind_eq_some_iff.1 hstep
    split at hn
    · obtain rfl := Option.some.inj hn
      rw [gains_cons, ih hm, gain, hk]
      dsimp only
      omega
    · simp at hn

/-- The number of values that what has been read will leave, less the one for an operand that has just ended. -/
def State.excess (s : State) : Int :=
  gains s.output + gains s.pending - if s.afterValue then 1 else 0

/-- The number of open parentheses. -/
def State.openParens (s : State) : Nat := s.pending.count leftParen

theorem pushOperator_counts (s : State) {op : Token} (hop : op ≠ leftParen) :
    gains (pushOperator s op).output + gains (pushOperator s op).pending =
      gains s.output + gains s.pending + gain op ∧
      (pushOperator s op).openParens = s.openParens := by
  obtain ⟨ops, hpending, houtput, hops⟩ := popOperators_spec op s.pending s.output
  simp only [pushOperator, State.openParens, houtput, gains_append, gains_reverse, gains_cons]
  rw [List.count_cons_of_ne hop]
  constructor
  · rw [congrArg gains hpending, gains_append]
    omega
  · rw [congrArg (List.count leftParen) hpending, List.count_append, List.count_eq_zero.2 hops,
      Nat.zero_add]

theorem closeParen_counts {s s' : State} (h : closeParen s = .ok s') :
    gains s'.output + gains s'.pending = gains s.output + gains s.pending ∧
      s.openParens = s'.openParens + 1 := by
  obtain ⟨-, ops, hops, ⟨hpending, houtput⟩ | ⟨f, hf, hpending, houtput⟩⟩ := closeParen_spec h
  all_goals
    simp only [State.openParens, hpending, houtput, gains_append, gains_cons, gains_reverse,
      List.count_append, List.count_cons_self, List.count_eq_zero.2 hops, Nat.zero_add]
  · exact ⟨by simp only [gain, arity?]; omega, trivial⟩
  · have hne : f ≠ leftParen := by
      rintro rfl
      simp [isFunction] at hf
    rw [List.count_cons_of_ne hne]
    exact ⟨by simp only [gain, arity?]; omega, rfl⟩

/-- Where no operand begins right after another, no token raises the excess, and one that keeps it is in place. -/
theorem excess_step {s s' : State} {t : Token} {parenFollows : Bool}
    (h : step s t parenFollows = .ok s') (hneg : t ≠ negate)
    (hfirst : s.afterValue = true → beginsOperand t = false) :
    s'.afterValue = endsOperand t ∧ s'.excess ≤ s.excess ∧
      (s'.excess = s.excess → Next s.afterValue s.openParens t s'.afterValue s'.openParens) := by
  have hoperator (op : Token) (hop : isBinary op = true) :
      (pushOperator s op).excess ≤ s.excess ∧ ((pushOperator s op).excess = s.excess →
        Next s.afterValue s.openParens op false (pushOperator s op).openParens) := by
    have hne : op ≠ leftParen := by
      rintro rfl
      simp [isBinary] at hop
    obtain ⟨hgains, hopen⟩ := pushOperator_counts s hne
    have hflag : (pushOperator s op).afterValue = false := rfl
    rw [State.excess, State.excess, hflag, hgains, gain_binary hop, hopen]
    cases s.afterValue with
    | true => exact ⟨by simp, fun _ => .operator hop _⟩
    | false => exact ⟨by simp, fun heq => by simp at heq⟩
  have hbegin (hb : beginsOperand t = true) : s.afterValue = false := by
    cases hv : s.afterValue with
    | false => rfl
    | true => exact absurd (hfirst hv) (by simp [hb])
  cases t with
  | number q =>
    obtain rfl := Except.ok.inj h
    rw [hbegin rfl]
    refine ⟨rfl, ?_, fun _ => .number q _⟩
    simp [State.excess, State.emit, hbegin rfl, gain, arity?]
    omega
  | name n =>
    rw [hbegin rfl]
    rw [step] at h
    split at h
    · rename_i hn
      obtain rfl := Except.ok.inj h
      have hopen : (s.push (name n)).openParens = s.openParens := List.count_cons_of_ne (by simp)
      refine ⟨by simp [State.push, endsOperand, hn], ?_, fun _ => hopen ▸ .call hn _⟩
      simp [State.excess, State.push, hbegin rfl, gain, arity?, hn]
    · rename_i hn
      have hn : isFunctionName n = false := by simpa using hn
      split at h
      · simp at h
      · obtain rfl := Except.ok.inj h
        refine ⟨by simp [State.emit, endsOperand, hn], ?_, fun _ => .atom hn _⟩
        simp [State.excess, State.emit, hbegin rfl, gain, arity?, hn]
        omega
  | leftParen =>
    obtain rfl := Except.ok.inj h
    rw [hbegin rfl]
    have hopen : (s.push leftParen).openParens = s.openParens + 1 := List.count_cons_self
    refine ⟨rfl, ?_, fun _ => hopen ▸ .opening _⟩
    simp [State.excess, State.push, hbegin rfl, gain, arity?]
  | rightParen =>
    have hflag := (closeParen_spec h).1
    obtain ⟨hgains, hopen⟩ := closeParen_counts h
    rw [State.excess, State.excess, hgains, hflag, hopen]
    refine ⟨rfl, ?_⟩
    cases s.afterValue with
    | true => exact ⟨by simp, fun _ => .closing _⟩
    | false => exact ⟨by simp, fun heq => by simp at heq⟩
  | minus =>
    obtain rfl := Except.ok.inj h
    cases hv : s.afterValue with
    | true =>
      rw [if_pos rfl]
      exact ⟨rfl, hv ▸ hoperator minus rfl⟩
    | false =>
      have hopen : (s.push negate).openParens = s.openParens := List.count_cons_of_ne (by simp)
      rw [if_neg (by simp)]
      refine ⟨rfl, ?_, fun _ => hopen ▸ .sign rfl _⟩
      simp [State.excess, State.push, hv, gain, arity?]
  | plus =>
    obtain rfl := Except.ok.inj h
    cases hv : s.afterValue with
    | true =>
      rw [if_pos rfl]
      exact ⟨rfl, hv ▸ hoperator plus rfl⟩
    | false =>
      rw [if_neg (by simp)]
      exact ⟨hv, Int.le_refl _, fun _ => hv ▸ .sign rfl _⟩
  | times | divide | caret =>
    obtain rfl := Except.ok.inj h
    exact ⟨rfl, hoperator _ rfl⟩
  | negate => exact absurd rfl hneg

/-- What is read from a row without adjacent operands leaves at most one value more than the excess, and exactly one
more only if every token is in place. -/
theorem placed_of_run {s s' : State} {ts r : List Token} (hrun : run s ts = .ok s')
    (hflush : flush s'.pending s'.output = .ok r) (hneg : negate ∉ ts)
    (hchain : ts.IsChain fun t u => ¬ Adjacent t u)
    (hfirst : s.afterValue = true → ∀ t ∈ ts.head?, beginsOperand t = false) :
    gains r ≤ s.excess + 1 ∧ (gains r = s.excess + 1 → Placed s.afterValue s.openParens ts) := by
  induction ts generalizing s with
  | nil =>
    obtain rfl := Except.ok.inj hrun
    obtain ⟨hparen, rfl⟩ := flush_eq_ok.1 hflush
    have hopen : s.openParens = 0 := List.count_eq_zero.2 hparen
    simp only [gains_reverse, gains_append, State.excess, hopen]
    cases s.afterValue with
    | true => exact ⟨by simp; omega, fun _ => .done⟩
    | false => exact ⟨by simp; omega, fun heq => by simp at heq; omega⟩
  | cons t ts ih =>
    rw [run] at hrun
    split at hrun
    · simp at hrun
    · rename_i s₁ hstep
      split at hrun
      · simp at hrun
      · obtain ⟨hends, hle, hplace⟩ := excess_step hstep (fun heq => hneg (heq ▸ List.mem_cons_self))
          fun hv => hfirst hv t rfl
        have hnext : s₁.afterValue = true → ∀ u ∈ ts.head?, beginsOperand u = false := by
          intro hv u hu
          have hadj := List.isChain_cons.1 hchain |>.1 u hu
          rw [hends] at hv
          simpa [Adjacent, hv] using hadj
        obtain ⟨hbound, hrest⟩ := ih hrun (fun hm => hneg (List.mem_cons_of_mem t hm))
          (List.isChain_cons.1 hchain).2 hnext
        refine ⟨by omega, fun heq => ?_⟩
        exact .next (hplace (by omega)) (hrest (by omega))

/-! ## Infix expressions -/

/-- The number of operators with two operands. -/
def binaries (ts : List Token) : Nat := ts.countP fun t => arity? t = some 2

theorem binaries_cons (t : Token) (ts : List Token) :
    binaries (t :: ts) = binaries ts + if arity? t = some 2 then 1 else 0 := by
  simp [binaries, List.countP_cons]

theorem binaries_append (ts us : List Token) : binaries (ts ++ us) = binaries ts + binaries us :=
  List.countP_append

/-- Enough values have been written for the operators that wait: the left operands of those between two operands, and
one more value if an operand has just ended. -/
structure State.Sound (s : State) : Prop where
  pending : ∀ t ∈ s.pending, t = leftParen ∨ arity? t = some 1 ∨ arity? t = some 2
  height : height s.output = some (binaries s.pending + if s.afterValue then 1 else 0)

/-- Pending operators find their operands. -/
theorem height_move {ops output : List Token} {k : Nat}
    (hops : ∀ o ∈ ops, arity? o = some 1 ∨ arity? o = some 2)
    (h : height output = some (k + binaries ops + 1)) :
    height (ops.reverse ++ output) = some (k + 1) := by
  induction ops generalizing output with
  | nil => exact h
  | cons o ops ih =>
    obtain ⟨ho, hops⟩ := List.forall_mem_cons.1 hops
    have hmove : height (o :: output) = some (k + binaries ops + 1) := by
      rw [height, h]
      rcases ho with ho | ho
      · simp [heightStep, ho, binaries_cons]
      · simp [heightStep, ho, binaries_cons]
    simpa using ih hops hmove

/-- The part of the pending tokens that a step moves has the operands it needs, if an operand has just ended. -/
theorem State.Sound.moved {s : State} (hs : s.Sound) (hv : s.afterValue = true)
    {ops rest : List Token} (hpending : s.pending = ops ++ rest) (hops : leftParen ∉ ops) :
    Postfix.height (ops.reverse ++ s.output) = some (binaries rest + 1) := by
  refine height_move (fun o ho => ?_) ?_
  · have hmem : o ∈ s.pending := hpending ▸ List.mem_append_left rest ho
    refine (hs.pending o hmem).resolve_left ?_
    rintro rfl
    exact hops ho
  · rw [hs.height, hpending, binaries_append, hv, if_pos rfl, Nat.add_comm (binaries ops)]

theorem sound_pushOperator {s : State} (hs : s.Sound) (hv : s.afterValue = true) {op : Token}
    (hop : isBinary op = true) : (pushOperator s op).Sound := by
  obtain ⟨ops, hpending, houtput, hops⟩ := popOperators_spec op s.pending s.output
  have hop := arity?_binary hop
  refine ⟨fun t ht => ?_, ?_⟩
  · rcases List.mem_cons.1 ht with rfl | ht
    · exact .inr (.inr hop)
    · exact hs.pending t (hpending ▸ List.mem_append_right ops ht)
  · have hmoved := hs.moved hv hpending hops
    simp only [pushOperator, houtput, hmoved]
    simp [binaries_cons, hop]

theorem sound_closeParen {s : State} (hs : s.Sound) (hv : s.afterValue = true)
    (hopen : 0 < s.openParens) : ∃ s', closeParen s = .ok s' ∧ s'.Sound := by
  obtain ⟨⟨pending, output⟩, hpop⟩ := popToParen_isSome (List.count_pos_iff.1 hopen) s.output
  have hok : ∃ s', closeParen s = .ok s' := by
    rw [closeParen, hpop]
    cases pending with
    | nil => exact ⟨_, rfl⟩
    | cons f pending =>
      dsimp only
      split
      · exact ⟨_, rfl⟩
      · exact ⟨_, rfl⟩
  obtain ⟨s', hclose⟩ := hok
  refine ⟨s', hclose, ?_⟩
  obtain ⟨hflag, ops, hops, ⟨hpending, houtput⟩ | ⟨f, hf, hpending, houtput⟩⟩ := closeParen_spec hclose
  · refine ⟨fun t ht => hs.pending t (by simp [hpending, ht]), ?_⟩
    rw [houtput, hs.moved hv hpending hops, hflag]
    simp [binaries_cons, arity?]
  · have hone := arity?_function hf
    have hparen : arity? leftParen ≠ some 2 := by simp [arity?]
    refine ⟨fun t ht => hs.pending t (by simp [hpending, ht]), ?_⟩
    rw [houtput, Postfix.height, hs.moved hv hpending hops, hflag]
    simp [heightStep, binaries_cons, hone, hparen]

/-- A token in its place is read, and leaves a sound state. -/
theorem sound_step {s : State} (hs : s.Sound) {t : Token} {parenFollows a : Bool} {d : Nat}
    (h : Next s.afterValue s.openParens t a d) (hparen : a = true → parenFollows = false) :
    ∃ s', step s t parenFollows = .ok s' ∧ s'.afterValue = a ∧ s'.openParens = d ∧ s'.Sound := by
  have hpush (u : Token) (hu : u = leftParen ∨ arity? u = some 1) (hv : s.afterValue = false) :
      (s.push u).Sound := by
    refine ⟨fun t ht => ?_, ?_⟩
    · rcases List.mem_cons.1 ht with rfl | ht
      · exact hu.imp_right .inl
      · exact hs.pending t ht
    · have hnot : arity? u ≠ some 2 := by rcases hu with rfl | hu <;> simp_all [arity?]
      simp [State.push, hs.height, hv, binaries_cons, hnot]
  have hemit (u : Token) (hu : arity? u = some 0) (hv : s.afterValue = false) : (s.emit u).Sound := by
    refine ⟨hs.pending, ?_⟩
    simp [State.emit, Postfix.height, hs.height, hv, heightStep, hu]
  generalize hv : s.afterValue = v at h
  generalize hd : s.openParens = o at h
  cases h with
  | number q => exact ⟨_, rfl, rfl, hd, hemit _ rfl hv⟩
  | @atom n hn =>
    refine ⟨s.emit (name n), ?_, rfl, hd, hemit _ (by simp [arity?, hn]) hv⟩
    simp [step, hn, hparen rfl]
  | @call n hn =>
    refine ⟨s.push (name n), by simp [step, hn], rfl, ?_, hpush _ (.inr (by simp [arity?, hn])) hv⟩
    rw [← hd]
    exact List.count_cons_of_ne (by simp)
  | @sign t ht =>
    cases t with
    | plus => exact ⟨s, by simp [step, hv], hv, hd, hs⟩
    | minus =>
      refine ⟨s.push negate, by simp [step, hv], rfl, ?_, hpush _ (.inr rfl) hv⟩
      rw [← hd]
      exact List.count_cons_of_ne (by simp)
    | _ => simp [isSign] at ht
  | opening =>
    refine ⟨s.push leftParen, rfl, rfl, ?_, hpush _ (.inl rfl) hv⟩
    rw [← hd]
    exact List.count_cons_self
  | closing =>
    obtain ⟨s', hclose, hsound⟩ := sound_closeParen hs hv (by omega)
    refine ⟨s', hclose, (closeParen_spec hclose).1, ?_, hsound⟩
    have := (closeParen_counts hclose).2
    omega
  | @operator t ht =>
    have hstep : step s t parenFollows = .ok (pushOperator s t) := by
      cases t <;> simp_all [isBinary, step]
    refine ⟨_, hstep, rfl, ?_, sound_pushOperator hs hv ht⟩
    rw [(pushOperator_counts s (by rintro rfl; simp [isBinary] at ht)).2, hd]

/-- A row all of whose tokens are in place is read to its end, unless too much is pending on the way. -/
theorem run_of_placed {s : State} {ts : List Token} (hs : s.Sound)
    (h : Placed s.afterValue s.openParens ts) :
    run s ts = .error (.tooDeep maxPending) ∨
      ∃ s', run s ts = .ok s' ∧ s'.afterValue = true ∧ s'.openParens = 0 ∧ s'.Sound := by
  induction ts generalizing s with
  | nil =>
    right
    generalize hv : s.afterValue = v at h
    generalize hd : s.openParens = o at h
    cases h
    exact ⟨s, rfl, hv, hd, hs⟩
  | cons t ts ih =>
    generalize hv : s.afterValue = v at h
    generalize hd : s.openParens = o at h
    cases h with
    | next ht hrest =>
      -- An operand is not followed by an opening parenthesis.
      have hparen : ∀ {a d}, Placed a d ts → a = true → decide (ts.head? = some leftParen) = false := by
        rintro a d hrest rfl
        rcases hrest.after with ⟨rfl, -⟩ | ⟨_, _, rfl, -⟩ | ⟨op, _, rfl, hop, -⟩
        · rfl
        · rfl
        · cases op <;> simp_all [isBinary]
      obtain ⟨s', hstep, hv', hd', hsound⟩ := sound_step hs (hv ▸ hd ▸ ht) (hparen hrest)
      rw [run, hstep]
      dsimp only
      split
      · exact .inl rfl
      · exact ih hsound (hv' ▸ hd' ▸ hrest)

/-! ## The tokens of a text -/

theorem ofSymbol?_ne_negate (c : Char) : ofSymbol? c ≠ some negate := by
  unfold ofSymbol?
  split <;> simp

/-- Putting another token than `negate` first keeps it absent. -/
theorem negate_not_mem_map {t : Token} {r : Except Error (List Token)} (ht : t ≠ negate)
    (ih : ∀ ts, r = .ok ts → negate ∉ ts) {ts : List Token} (h : r.map (t :: ·) = .ok ts) :
    negate ∉ ts := by
  cases r with
  | error err => simp [Except.map] at h
  | ok us =>
    obtain rfl := Except.ok.inj h
    simpa [ht.symm] using ih us rfl

/-- A text yields no sign that is already known to stand before its operand. -/
theorem negate_not_mem_scan {cs : List Char} {ts : List Token} (h : scan cs = .ok ts) : negate ∉ ts := by
  fun_induction scan cs generalizing ts with
  | case1 =>
    obtain rfl := Except.ok.inj h
    simp
  | case2 c cs hblank ih => exact ih h
  | case3 c cs _ _ ih => exact negate_not_mem_map (by simp) (fun _ => ih) h
  | case4 c cs _ _ t ht ih =>
    refine negate_not_mem_map ?_ (fun _ => ih) h
    rintro rfl
    exact ofSymbol?_ne_negate c ht
  | case5 c cs _ _ _ _ ih => exact negate_not_mem_map (by simp) (fun _ => ih) h
  | case6 c cs _ _ _ _ _ q rest _ ih => exact negate_not_mem_map (by simp) (fun _ => ih) h
  | case7 => simp at h
  | case8 c cs _ _ _ _ _ _ q rest _ ih => exact negate_not_mem_map (by simp) (fun _ => ih) h
  | case9 => simp at h
  | case10 => simp at h

/-! ## What the reader accepts -/

/-- What is accepted is an infix expression, or operands stand next to each other in it. -/
theorem infix_or_adjacent {ts r : List Token} {x : Expr} (hneg : negate ∉ ts)
    (hr : ofInfix ts = .ok r) (hx : toExpr r = .ok x) :
    Infix .expression ts ∨
      ∃ before t u after, ts = before ++ t :: u :: after ∧ Adjacent t u := by
  rw [ofInfix] at hr
  split at hr
  · simp at hr
  · rename_i s hrun
    by_cases hchain : ts.IsChain fun t u => ¬ Adjacent t u
    · left
      have hone : gains r = 1 := by
        have hheight := (toExpr_isOk_iff r.reverse).1 ⟨x, by rw [List.reverse_reverse, hx]⟩
        rw [← gains_reverse, gains_of_height hheight]
        rfl
      have hplaced := (placed_of_run hrun hr hneg hchain (by simp [State.initial])).2
      exact infix_iff_placed.2 (hplaced hone)
    · right
      rw [List.isChain_iff_forall_rel_of_append_cons_cons] at hchain
      push Not at hchain
      obtain ⟨t, u, before, after, rfl, hadj⟩ := hchain
      exact ⟨before, t, u, after, rfl, hadj⟩

theorem sound_initial : State.initial.Sound := ⟨by simp [State.initial], rfl⟩

/-- An infix expression is accepted, unless too much is pending on the way. -/
theorem accepted_of_infix {ts : List Token} (h : Infix .expression ts) :
    run State.initial ts = .error (.tooDeep maxPending) ∨
      ∃ r x, ofInfix ts = .ok r ∧ toExpr r = .ok x := by
  rcases run_of_placed sound_initial (infix_iff_placed.1 h) with hrun | ⟨s, hrun, hv, hopen, hs⟩
  · exact .inl hrun
  · right
    have hparen : leftParen ∉ s.pending := List.count_eq_zero.1 hopen
    have hheight := hs.moved hv (List.append_nil s.pending).symm hparen
    obtain ⟨x, hx⟩ := (toExpr_isOk_iff _).2 hheight
    refine ⟨_, x, ?_, hx⟩
    rw [ofInfix, hrun]
    exact flush_eq_ok.2 ⟨hparen, rfl⟩

/-- What is accepted of the tokens of a text is an infix expression, or operands stand next to each other in it. Every
infix expression is accepted, unless too much is pending on the way, and this does not happen to one of at most
`maxPending` tokens. -/
theorem acceptance {text : String} {ts : List Token} (h : tokenize text = .ok ts) :
    ((∃ r x, ofInfix ts = .ok r ∧ toExpr r = .ok x) →
      Infix .expression ts ∨
        ∃ before t u after, ts = before ++ t :: u :: after ∧ Adjacent t u) ∧
    (Infix .expression ts →
      (ofInfix ts = .error (.tooDeep maxPending) ∨
        ∃ r x, ofInfix ts = .ok r ∧ toExpr r = .ok x) ∧
      (ts.length ≤ maxPending → ∃ r x, ofInfix ts = .ok r ∧ toExpr r = .ok x)) := by
  refine ⟨fun ⟨_, _, hr, hx⟩ => infix_or_adjacent (negate_not_mem_scan h) hr hx, fun hexpr => ?_⟩
  have hread := accepted_of_infix hexpr
  refine ⟨hread.imp_left fun hrun => ?_, fun hshort => hread.resolve_left (run_ne_tooDeep ?_)⟩
  · rw [ofInfix, hrun]
  · simpa [State.initial] using hshort

/-- A sum in parentheses is an infix expression and is accepted. -/
theorem acceptance_sum :
    Infix .expression [leftParen, number 1, plus, number 2, rightParen] ∧
      ∃ r x, ofInfix [leftParen, number 1, plus, number 2, rightParen] = .ok r ∧ toExpr r = .ok x := by
  have htokens : tokenize "(1 + 2)" = .ok [leftParen, number 1, plus, number 2, rightParen] := by
    decide +kernel
  have hone : Infix .expression [number 1] := .single (.number 1)
  have hsum : Infix .expression [number 1, plus, number 2] := .binary rfl hone (.number 2)
  have hexpr : Infix .expression [leftParen, number 1, plus, number 2, rightParen] :=
    .single (.paren hsum)
  exact ⟨hexpr, ((acceptance htokens).2 hexpr).2 (by decide)⟩

/-- An operator after both its operands is accepted as well, although the row is no infix expression. -/
theorem operator_after_operands_accepted :
    tokenize "1 2 +" = .ok [number 1, number 2, plus] ∧
      ofInfix [number 1, number 2, plus] = .ok [number 1, number 2, plus] ∧
      toExpr [number 1, number 2, plus] = .ok (.rat 3) ∧
      ¬ Infix .expression [number 1, number 2, plus] := by
  have hvalue : toExpr [number 1, number 2, plus] = .ok (.rat 3) :=
    congrArg Except.ok ((Expr.sum_rat_rat 1 2).trans (congrArg Expr.rat (by norm_num)))
  refine ⟨by decide +kernel, by decide, hvalue, fun h => ?_⟩
  cases infix_iff_placed.1 h with
  | next ht h =>
    cases ht with
    | sign hs => simp [isSign] at hs
    | number =>
      rcases h.after with ⟨h, -⟩ | ⟨_, _, h, -⟩ | ⟨_, _, h, hop, -⟩
      · simp at h
      · simp at h
      · obtain rfl := (List.cons.inj h).1
        simp [isBinary] at hop

end SymbolicSolver.Postfix
