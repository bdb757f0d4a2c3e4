import Mathlib.Algebra.Field.Rat
import SymbolicSolver.Proofs.Postfix.Reading
import SymbolicSolver.Proofs.Printer.Spelling
import SymbolicSolver.Query.Arithmetic

/-!
# Plain arithmetic is read like formulas

The evaluator of plain arithmetic applies at once what the reader of formulas writes to its output. Step by step the
values of the one are the floats of the trees whose listings the other has written, and the same signs, operators and
parentheses wait. So a text with a float has the float of the very tree that the reader builds of it.
-/

namespace SymbolicSolver.Query.Arithmetic

open Postfix (Tree Operator popOperators popToParen)
open Token (isDigit digitsValue)

/-! ## The float of a tree -/

def Op.operator : Op → Operator
  | add => .plus
  | sub => .minus
  | mul => .times
  | div => .divide
  | pow => .power

/-- The floats that evaluation may give a tree; how the numbers are written is left open. -/
inductive Evaluates : Float → Tree → Prop
  | number (n k : Nat) : Evaluates (Float.ofScientific n true k) (.number (mkRat n (10 ^ k)))
  | negate {x : Float} {t : Tree} (h : Evaluates x t) : Evaluates (-x) (.negate t)
  | binary {x y : Float} {t u : Tree} (o : Op) (hx : Evaluates x t) (hy : Evaluates y u) :
      Evaluates (o.apply x y) (.binary o.operator t u)

/-- Values and the output in which the listings of their trees are written, both with the newest first. -/
inductive Written : List Float → List Token → Prop
  | nil : Written [] []
  | cons {x : Float} {t : Tree} {xs : List Float} {output : List Token} (h : Evaluates x t) (hxs : Written xs output) :
      Written (x :: xs) (t.listing.reverse ++ output)

/-! ## Pending operators -/

/-- The token that waits in place of a pending sign or operator. -/
def Pending.token? : Pending → Option Token
  | sign negative => if negative then some .negate else none
  | op o => some o.operator.token
  | paren => some .leftParen

/-- The tokens of all that is pending. -/
def tokens (ps : List Pending) : List Token := ps.filterMap Pending.token?

/-- Applying an operator keeps values and output together if its token is written. -/
theorem Written.run {p : Pending} {xs ys : List Float} {output : List Token} (h : Written xs output)
    (hrun : p.run? xs = some ys) : Written ys (p.token?.toList ++ output) := by
  cases p with
  | sign negative =>
    cases h with
    | nil => cases hrun
    | cons hx hxs =>
      obtain rfl := Option.some.inj hrun
      cases negative with
      | false => exact .cons hx hxs
      | true =>
        have hneg := Written.cons (.negate hx) hxs
        rwa [Tree.listing, List.reverse_append] at hneg
  | op o =>
    cases h with
    | nil => cases hrun
    | cons hy hys =>
      cases hys with
      | nil => cases hrun
      | cons hx hxs =>
        obtain rfl := Option.some.inj hrun
        have hbin := Written.cons (.binary o hx hy) hxs
        simp only [Tree.listing, List.reverse_append, List.append_assoc] at hbin
        exact hbin
  | paren => cases xs <;> cases hrun

/-- The token of what is no parenthesis binds as strongly, and it is no function. -/
theorem Pending.token?_spec {p : Pending} (hp : p ≠ .paren) {t : Token} (ht : p.token? = some t) :
    t ≠ .leftParen ∧ Postfix.isFunction t = false ∧ Postfix.binding t = p.binding := by
  cases p with
  | sign negative =>
    cases negative with
    | false => cases ht
    | true =>
      obtain rfl := Option.some.inj ht
      exact ⟨by decide, rfl, rfl⟩
  | op o =>
    obtain rfl := Option.some.inj ht
    cases o <;> exact ⟨by decide, rfl, rfl⟩
  | paren => exact absurd rfl hp

theorem tokens_cons (p : Pending) (ps : List Pending) : tokens (p :: ps) = p.token?.toList ++ tokens ps := by
  rw [tokens, List.filterMap_cons]
  cases p.token? <;> rfl

/-- A power applies nothing before it. -/
theorem applyBefore?_pow (ps : List Pending) (xs : List Float) : applyBefore? .pow ps xs = some (ps, xs) := by
  rcases ps with - | ⟨_ | o | -, ps⟩
  · rfl
  · rfl
  · cases o <;> rfl
  · rfl

theorem applyBefore?_cons {o : Op} (ho : o ≠ .pow) {p : Pending} (hp : p ≠ .paren) (ps : List Pending)
    (xs : List Float) : applyBefore? o (p :: ps) xs =
      if o.binding ≤ p.binding then (p.run? xs).bind (applyBefore? o ps) else some (p :: ps, xs) := by
  cases p with
  | paren => exact absurd rfl hp
  | _ => cases o <;> first | exact absurd rfl ho | simp [applyBefore?]

theorem popOperators_cons {o : Op} (ho : o ≠ .pow) {p : Pending} (hp : p ≠ .paren) {t : Token} (ht : p.token? = some t)
    (pending output : List Token) : popOperators o.operator.token (t :: pending) output =
      if o.binding ≤ p.binding then popOperators o.operator.token pending (t :: output) else (t :: pending, output) := by
  obtain ⟨hparen, hfun, hbinding⟩ := p.token?_spec hp ht
  have hop : Postfix.binding o.operator.token = o.binding := by cases o <;> rfl
  have hleft : Postfix.isRightAssociative o.operator.token = false := by
    cases o <;> first | exact absurd rfl ho | rfl
  rw [popOperators, hbinding, hop, hleft, hfun]
  simp only [hparen, decide_false, Bool.or_self, Bool.false_eq_true, if_false, Bool.not_false, Bool.and_true,
    Bool.or_eq_true, decide_eq_true_eq, ← Nat.le_iff_lt_or_eq]

/-- The same operators come before a further one. -/
theorem popOperators_applyBefore? {o : Op} {ps ps' : List Pending} {xs xs' : List Float} {output : List Token}
    (h : Written xs output) (happly : applyBefore? o ps xs = some (ps', xs')) :
    ∃ output', popOperators o.operator.token (tokens ps) output = (tokens ps', output') ∧ Written xs' output' := by
  by_cases ho : o = .pow
  · subst ho
    rw [applyBefore?_pow] at happly
    obtain ⟨rfl, rfl⟩ := Prod.mk.inj (Option.some.inj happly)
    exact ⟨output, Postfix.popOperators_caret _ _, h⟩
  induction ps generalizing xs output with
  | nil =>
    obtain ⟨rfl, rfl⟩ := Prod.mk.inj (Option.some.inj happly)
    exact ⟨output, rfl, h⟩
  | cons p ps ih =>
    by_cases hp : p = .paren
    · subst hp
      rw [applyBefore?] at happly
      obtain ⟨rfl, rfl⟩ := Prod.mk.inj (Option.some.inj happly)
      exact ⟨output, rfl, h⟩
    rw [applyBefore?_cons ho hp] at happly
    rw [tokens_cons]
    cases ht : p.token? with
    | none =>
      -- A plus sign leaves no token; every operator but a power is weaker.
      have hle : o.binding ≤ p.binding := by
        cases p with
        | sign => cases o <;> first | exact absurd rfl ho | simp [Op.binding, Pending.binding]
        | op => cases ht
        | paren => cases ht
      rw [if_pos hle] at happly
      obtain ⟨ys, hrun, hrest⟩ := Option.bind_eq_some_iff.1 happly
      have hys := h.run hrun
      rw [ht] at hys
      exact ih hys hrest
    | some t =>
      rw [Option.toList_some, List.singleton_append, popOperators_cons ho hp ht]
      split at happly
      next hle =>
        obtain ⟨ys, hrun, hrest⟩ := Option.bind_eq_some_iff.1 happly
        have hys := h.run hrun
        rw [ht] at hys
        rw [if_pos hle]
        exact ih hys hrest
      next hle =>
        obtain ⟨rfl, rfl⟩ := Prod.mk.inj (Option.some.inj happly)
        rw [if_neg hle, tokens_cons, ht]
        exact ⟨output, rfl, h⟩

/-- The same operators stand behind an opening parenthesis. -/
theorem popToParen_closeParen? {ps ps' : List Pending} {xs xs' : List Float} {output : List Token}
    (h : Written xs output) (hclose : closeParen? ps xs = some (ps', xs')) :
    ∃ output', popToParen (tokens ps) output = some (tokens ps', output') ∧ Written xs' output' := by
  induction ps generalizing xs output with
  | nil => cases hclose
  | cons p ps ih =>
    by_cases hp : p = .paren
    · subst hp
      obtain ⟨rfl, rfl⟩ := Prod.mk.inj (Option.some.inj hclose)
      exact ⟨output, rfl, h⟩
    have hstep : closeParen? (p :: ps) xs = (p.run? xs).bind (closeParen? ps) := by
      cases p <;> first | exact absurd rfl hp | rfl
    rw [hstep] at hclose
    obtain ⟨ys, hrun, hrest⟩ := Option.bind_eq_some_iff.1 hclose
    obtain ⟨output', hpop, hwritten⟩ := ih (h.run hrun) hrest
    refine ⟨output', ?_, hwritten⟩
    rw [tokens_cons, ← hpop]
    cases ht : p.token? with
    | none => rfl
    | some t =>
      have hparen := (p.token?_spec hp ht).1
      cases t <;> first | exact absurd rfl hparen | rfl

/-- The two readers stand at the same place. -/
structure Mirrors (s : State) (p : Postfix.State) : Prop where
  written : Written s.values p.output
  pending : p.pending = tokens s.pending
  afterValue : p.afterValue = s.afterValue

theorem Mirrors.binary {s s' : State} {p : Postfix.State} (h : Mirrors s p) {o : Op} (hs : s.binary? o = some s') :
    Mirrors s' (Postfix.pushOperator p o.operator.token) := by
  obtain ⟨⟨ps, xs⟩, happly, rfl⟩ := Option.map_eq_some_iff.1 hs
  obtain ⟨output, hpop, hwritten⟩ := popOperators_applyBefore? h.written happly
  rw [← h.pending] at hpop
  rw [Postfix.pushOperator, hpop]
  exact ⟨hwritten, rfl, rfl⟩

theorem Mirrors.closeParen {s : State} {p p' : Postfix.State} (h : Mirrors s p) {ps : List Pending} {xs : List Float}
    (hs : closeParen? s.pending s.values = some (ps, xs)) (hp : Postfix.closeParen p = .ok p') :
    Mirrors ⟨ps, xs, true⟩ p' := by
  obtain ⟨output, hpop, hwritten⟩ := popToParen_closeParen? h.written hs
  rw [← h.pending] at hpop
  rw [Postfix.closeParen, hpop] at hp
  -- No function waits before the parenthesis.
  have hfun : ∀ t ∈ tokens ps, Postfix.isFunction t = false := by
    intro t ht
    obtain ⟨q, -, hq⟩ := List.mem_filterMap.1 ht
    by_cases hparen : q = .paren
    · subst hparen
      obtain rfl := Option.some.inj hq
      rfl
    · exact (q.token?_spec hparen hq).2.1
  cases hps : tokens ps with
  | nil =>
    rw [hps] at hp
    obtain rfl := Except.ok.inj hp
    exact ⟨hwritten, hps.symm, rfl⟩
  | cons t ts =>
    rw [hps] at hp
    simp only [hfun t (hps ▸ List.mem_cons_self), Bool.false_eq_true, if_false] at hp
    obtain rfl := Except.ok.inj hp
    exact ⟨hwritten, hps.symm, rfl⟩

/-- After a value a binary operator or a closing parenthesis is read. -/
theorem symbol?_afterValue {s s' : State} {c : Char} (ha : s.afterValue = true) (hs : s.symbol? c = some s') :
    (∃ o : Op, Token.ofSymbol? c = some o.operator.token ∧ Text.isBlank c = false ∧ s.binary? o = some s') ∨
      c = ')' ∧ (closeParen? s.pending s.values).map (fun r => State.mk r.1 r.2 true) = some s' := by
  delta State.symbol? at hs
  rw [if_pos ha] at hs
  split at hs
  · exact .inl ⟨.add, rfl, rfl, hs⟩
  · exact .inl ⟨.sub, rfl, rfl, hs⟩
  · exact .inl ⟨.mul, rfl, rfl, hs⟩
  · exact .inl ⟨.div, rfl, rfl, hs⟩
  · exact .inl ⟨.pow, rfl, rfl, hs⟩
  · exact .inr ⟨rfl, hs⟩
  · cases hs

/-- Before a value a sign or an opening parenthesis is read. -/
theorem symbol?_beforeValue {s s' : State} {c : Char} (ha : s.afterValue = false) (hs : s.symbol? c = some s') :
    ∃ p, s' = { s with pending := p :: s.pending } ∧
      (c = '+' ∧ p = .sign false ∨ c = '-' ∧ p = .sign true ∨ c = '(' ∧ p = .paren) := by
  delta State.symbol? at hs
  rw [if_neg (by simp [ha])] at hs
  split at hs
  · exact ⟨_, (Option.some.inj hs).symm, .inl ⟨rfl, rfl⟩⟩
  · exact ⟨_, (Option.some.inj hs).symm, .inr (.inl ⟨rfl, rfl⟩)⟩
  · exact ⟨_, (Option.some.inj hs).symm, .inr (.inr ⟨rfl, rfl⟩)⟩
  · cases hs

/-- A character that is no digit does to the values what its token does to the output. -/
theorem Mirrors.symbol {s s' : State} {p p' : Postfix.State} (h : Mirrors s p) {c : Char} (hs : s.symbol? c = some s')
    {t : Token} (ht : Token.ofSymbol? c = some t) {parenFollows : Bool} (hp : Postfix.step p t parenFollows = .ok p') :
    Mirrors s' p' := by
  have hafter := h.afterValue
  cases ha : s.afterValue with
  | true =>
    rw [ha] at hafter
    rcases symbol?_afterValue ha hs with ⟨o, ho, -, hbinary⟩ | ⟨rfl, hclose⟩
    · obtain rfl := Option.some.inj (ht.symm.trans ho)
      obtain ⟨output, pending, afterValue⟩ := p
      obtain rfl : afterValue = true := hafter
      rw [Postfix.step_operator] at hp
      obtain rfl := Except.ok.inj hp
      exact h.binary hbinary
    · obtain ⟨⟨ps, xs⟩, hclosed, rfl⟩ := Option.map_eq_some_iff.1 hclose
      obtain rfl := Option.some.inj ht
      exact h.closeParen hclosed hp
  | false =>
    rw [ha] at hafter
    obtain ⟨q, rfl, hq⟩ := symbol?_beforeValue ha hs
    rcases hq with ⟨rfl, rfl⟩ | ⟨rfl, rfl⟩ | ⟨rfl, rfl⟩
    · obtain rfl := Option.some.inj ht
      simp only [Postfix.step, hafter, Bool.false_eq_true, if_false, Except.ok.injEq] at hp
      obtain rfl := hp
      exact ⟨h.written, h.pending, h.afterValue⟩
    · obtain rfl := Option.some.inj ht
      simp only [Postfix.step, hafter, Bool.false_eq_true, if_false, Except.ok.injEq] at hp
      obtain rfl := hp
      exact ⟨h.written, congrArg (Token.negate :: ·) h.pending, ha.symm⟩
    · obtain rfl := Option.some.inj ht
      obtain rfl := Except.ok.inj hp
      exact ⟨h.written, congrArg (Token.leftParen :: ·) h.pending, ha.symm⟩

/-- A character that is read is an operator or a parenthesis. -/
theorem ofSymbol?_of_symbol? {s s' : State} {c : Char} (hs : s.symbol? c = some s') :
    ∃ t, Token.ofSymbol? c = some t ∧ Text.isBlank c = false := by
  cases ha : s.afterValue with
  | true =>
    rcases symbol?_afterValue ha hs with ⟨o, ho, hblank, -⟩ | ⟨rfl, -⟩
    · exact ⟨_, ho, hblank⟩
    · exact ⟨_, rfl, rfl⟩
  | false =>
    obtain ⟨q, -, ⟨rfl, -⟩ | ⟨rfl, -⟩ | ⟨rfl, -⟩⟩ := symbol?_beforeValue ha hs <;> exact ⟨_, rfl, rfl⟩

/-! ## Numbers -/

theorem readAfterWhole_eq {whole cs rest : List Char} {q : Rat} (h : Token.readAfterWhole whole cs = .ok (q, rest)) :
    q = Token.decimalValue whole (splitFraction cs).1 ∧ rest = (splitFraction cs).2 := by
  unfold Token.readAfterWhole at h
  split at h
  · unfold Token.readFraction at h
    split at h
    · cases h
    · obtain ⟨rfl, rfl⟩ := Prod.mk.inj (Except.ok.inj h)
      exact ⟨rfl, rfl⟩
  next hdot =>
    obtain ⟨rfl, rfl⟩ := Prod.mk.inj (Except.ok.inj h)
    have hsplit : splitFraction cs = ([], cs) := by
      unfold splitFraction
      split
      · exact absurd rfl (hdot _)
      · rfl
    rw [hsplit]
    exact ⟨rfl, rfl⟩

/-- A number becomes a value on the one side and a token of the output on the other. -/
theorem Mirrors.number {s s' : State} {p p' : Postfix.State} (h : Mirrors s p) {whole fraction : List Char}
    (hs : s.number? whole fraction = some s') {parenFollows : Bool}
    (hp : Postfix.step p (.number (Token.decimalValue whole fraction)) parenFollows = .ok p') : Mirrors s' p' := by
  unfold State.number? at hs
  split at hs
  · cases hs
  · obtain rfl := Option.some.inj hs
    obtain rfl := Except.ok.inj hp
    exact ⟨.cons (.number _ _) h.written, h.pending, rfl⟩

/-! ## Texts -/

theorem withCarets_cons {c : Char} {cs : List Char} (h : ¬(c = '*' ∧ cs.head? = some '*')) :
    withCarets (c :: cs) = c :: withCarets cs := by
  rw [withCarets]
  rintro ds hc rfl
  exact h ⟨hc, rfl⟩

theorem isDigit_ne_star {c : Char} (h : isDigit c = true) : c ≠ '*' := by
  rintro rfl
  exact absurd h (by decide)

/-- Doubled stars stand behind the digits. -/
theorem withCarets_digits (cs : List Char) : (withCarets cs).takeWhile isDigit = cs.takeWhile isDigit ∧
    (withCarets cs).dropWhile isDigit = withCarets (cs.dropWhile isDigit) := by
  induction cs with
  | nil => exact ⟨rfl, rfl⟩
  | cons c cs ih =>
    cases hc : isDigit c with
    | true =>
      rw [withCarets_cons fun h => isDigit_ne_star hc h.1]
      simp only [List.takeWhile_cons, List.dropWhile_cons, hc, if_true, ih]
      exact ⟨trivial, trivial⟩
    | false =>
      by_cases hstar : c = '*' ∧ cs.head? = some '*'
      · obtain ⟨rfl, hhead⟩ := hstar
        obtain ⟨ds, rfl⟩ := List.head?_eq_some_iff.1 hhead
        exact ⟨rfl, rfl⟩
      · rw [withCarets_cons hstar]
        simp only [List.takeWhile_cons, List.dropWhile_cons, hc, Bool.false_eq_true, if_false, withCarets_cons hstar]
        exact ⟨trivial, trivial⟩

theorem splitFraction_of_head? {cs : List Char} (h : cs.head? ≠ some '.') : splitFraction cs = ([], cs) := by
  unfold splitFraction
  split
  · exact absurd rfl h
  · rfl

theorem splitFraction_withCarets (cs : List Char) :
    splitFraction (withCarets cs) = ((splitFraction cs).1, withCarets (splitFraction cs).2) := by
  rcases cs with - | ⟨c, cs⟩
  · rfl
  by_cases hdot : c = '.'
  · subst hdot
    rw [withCarets_cons fun h => absurd h.1 (by decide)]
    simp only [splitFraction, withCarets_digits]
  by_cases hstar : c = '*' ∧ cs.head? = some '*'
  · obtain ⟨rfl, hhead⟩ := hstar
    obtain ⟨ds, rfl⟩ := List.head?_eq_some_iff.1 hhead
    rfl
  · rw [@splitFraction_of_head? (c :: cs) (by simpa using hdot), withCarets_cons hstar,
      splitFraction_of_head? (by simpa using hdot)]

/-! ## Reading on both sides -/

theorem run_cons {p p' : Postfix.State} {t : Token} {ts : List Token} (h : Postfix.run p (t :: ts) = .ok p') :
    ∃ p₁ parenFollows, Postfix.step p t parenFollows = .ok p₁ ∧ Postfix.run p₁ ts = .ok p' := by
  rw [Postfix.run] at h
  split at h
  · cases h
  next p₁ hstep =>
    split at h
    · cases h
    · exact ⟨p₁, _, hstep, h⟩

theorem scan_map_cons {cs : List Char} {t : Token} {ts : List Token}
    (h : (Token.scan cs).map (t :: ·) = .ok ts) : ∃ us, Token.scan cs = .ok us ∧ ts = t :: us := by
  cases hscan : Token.scan cs with
  | error err =>
    rw [hscan] at h
    cases h
  | ok us =>
    rw [hscan] at h
    exact ⟨us, rfl, (Except.ok.inj h).symm⟩

theorem scan_digit {c : Char} {cs : List Char} {ts : List Token} (hc : isDigit c = true)
    (h : Token.scan (c :: cs) = .ok ts) : ∃ us, Token.scan (splitFraction (cs.dropWhile isDigit)).2 = .ok us ∧
      ts = .number (Token.decimalValue (c :: cs.takeWhile isDigit) (splitFraction (cs.dropWhile isDigit)).1) :: us := by
  obtain ⟨hblank, hsymbol, hstar, hstart⟩ :=
    Token.continuesName_spec (c := c) (by simp [Token.continuesName, hc])
  rw [hc, Bool.not_true] at hstart
  rw [Token.scan, hblank, if_neg Bool.false_ne_true, if_neg fun h => hstar h.1, hsymbol] at h
  dsimp only at h
  rw [hstart, if_neg Bool.false_ne_true, if_pos hc] at h
  split at h
  next q rest hread =>
    obtain ⟨rfl, rfl⟩ := readAfterWhole_eq hread
    exact scan_map_cons h
  next => cases h

/-- One symbol is read on both sides. -/
theorem Mirrors.run_symbol {s s' : State} {p p' : Postfix.State} {c : Char} {cs : List Char} {t : Token}
    {ts : List Token} (h : Mirrors s p) (hc : isDigit c = false) (ht : Token.ofSymbol? c = some t)
    (hs : run? s (c :: cs) = some s') (hp : Postfix.run p (t :: ts) = .ok p') :
    ∃ s₁ p₁, Mirrors s₁ p₁ ∧ run? s₁ cs = some s' ∧ Postfix.run p₁ ts = .ok p' := by
  obtain ⟨p₁, parenFollows, hstep, hrest⟩ := run_cons hp
  rw [run?, hc, if_neg Bool.false_ne_true] at hs
  split at hs
  next s₁ hsymbol => exact ⟨s₁, p₁, h.symbol hsymbol ht hstep, hs, hrest⟩
  next => cases hs

/-- One number is read on both sides. -/
theorem Mirrors.run_number {s s' : State} {p p' : Postfix.State} {c : Char} {cs : List Char} {ts : List Token}
    (h : Mirrors s p) (hc : isDigit c = true) (hs : run? s (c :: withCarets cs) = some s')
    (hp : Postfix.run p (.number (Token.decimalValue (c :: cs.takeWhile isDigit)
      (splitFraction (cs.dropWhile isDigit)).1) :: ts) = .ok p') :
    ∃ s₁ p₁, Mirrors s₁ p₁ ∧ run? s₁ (withCarets (splitFraction (cs.dropWhile isDigit)).2) = some s' ∧
      Postfix.run p₁ ts = .ok p' := by
  obtain ⟨p₁, parenFollows, hstep, hrest⟩ := run_cons hp
  obtain ⟨htake, hdrop⟩ := withCarets_digits cs
  rw [run?, if_pos hc] at hs
  dsimp only at hs
  rw [htake, hdrop, splitFraction_withCarets] at hs
  split at hs
  next s₁ hnumber => exact ⟨s₁, p₁, h.number hnumber hstep, hs, hrest⟩
  next => cases hs

/-- A character that is read and no digit is an operator or a parenthesis. -/
theorem ofSymbol?_of_run? {s s' : State} {c : Char} {cs : List Char} (hc : isDigit c = false)
    (hs : run? s (c :: cs) = some s') : ∃ t, Token.ofSymbol? c = some t ∧ Text.isBlank c = false := by
  rw [run?, hc, if_neg Bool.false_ne_true] at hs
  split at hs
  next s₁ hsymbol => exact ofSymbol?_of_symbol? hsymbol
  next => cases hs

/-- Reading a text keeps the two readers at the same place. -/
theorem Mirrors.run {cs : List Char} {s s' : State} {p p' : Postfix.State} {ts : List Token} (h : Mirrors s p)
    (hs : run? s (withCarets cs) = some s') (hts : Token.scan cs = .ok ts) (hp : Postfix.run p ts = .ok p') :
    Mirrors s' p' := by
  induction hlen : cs.length using Nat.strongRecOn generalizing cs s p ts with
  | _ n ih =>
    rcases cs with - | ⟨c, cs⟩
    · rw [Token.scan] at hts
      obtain rfl := Except.ok.inj hts
      rw [withCarets, run?] at hs
      obtain rfl := Option.some.inj hs
      obtain rfl := Except.ok.inj hp
      exact h
    rw [List.length_cons] at hlen
    by_cases hstar : c = '*' ∧ cs.head? = some '*'
    · -- Two stars are one operator on both sides.
      obtain ⟨rfl, hhead⟩ := hstar
      obtain ⟨ds, rfl⟩ := List.head?_eq_some_iff.1 hhead
      rw [Token.scan_stars] at hts
      obtain ⟨us, hus, rfl⟩ := scan_map_cons hts
      obtain ⟨s₁, p₁, h₁, hs₁, hp₁⟩ := h.run_symbol (by decide) rfl hs hp
      rw [List.length_cons] at hlen
      exact ih ds.length (by omega) h₁ hs₁ hus hp₁ rfl
    rw [withCarets_cons hstar] at hs
    cases hc : isDigit c with
    | true =>
      obtain ⟨us, hus, rfl⟩ := scan_digit hc hts
      obtain ⟨s₁, p₁, h₁, hs₁, hp₁⟩ := h.run_number hc hs hp
      have hrest := length_splitFraction (cs.dropWhile isDigit)
      have hdrop := Token.length_dropWhile_le isDigit cs
      exact ih _ (by omega) h₁ hs₁ hus hp₁ rfl
    | false =>
      obtain ⟨t, ht, hblank⟩ := ofSymbol?_of_run? hc hs
      rw [Token.scan_symbol ht hblank fun hc' hhead => hstar ⟨hc', hhead⟩] at hts
      obtain ⟨us, hus, rfl⟩ := scan_map_cons hts
      obtain ⟨s₁, p₁, h₁, hs₁, hp₁⟩ := h.run_symbol hc ht hs hp
      exact ih cs.length (by omega) h₁ hs₁ hus hp₁ rfl

end SymbolicSolver.Query.Arithmetic
