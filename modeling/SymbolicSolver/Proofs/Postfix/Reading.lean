import SymbolicSolver.Proofs.Postfix.Grammar

/-!
# Formulas are read as the grammar says

The tokens of a formula take the reader from a state in which a value must follow to one in which a value has ended.
What it has then written and the operators that it has left pending are together the listing of the tree, and these
operators bind at least as strongly as the level of the formula. The tokens that were pending before are untouched,
because the newest of them binds weaker. Reading stops on the way only if too much is pending.
-/

namespace SymbolicSolver.Postfix

open Token

/-! ## Single steps -/

/-- Reading the tokens from the first state either finds too much pending or comes to the second state. -/
def Reaches (s : State) (ts : List Token) (s' : State) (us : List Token) : Prop :=
  run s ts = .error (.tooDeep maxPending) ∨ run s ts = run s' us

theorem Reaches.trans {s s' s'' : State} {ts us vs : List Token} (h : Reaches s ts s' us)
    (h' : Reaches s' us s'' vs) : Reaches s ts s'' vs := by
  rcases h with h | h
  · exact .inl h
  · unfold Reaches
    rw [h]
    exact h'

theorem reaches_of_step {s s' : State} {t : Token} {ts : List Token}
    (h : step s t (ts.head? = some leftParen) = .ok s') : Reaches s (t :: ts) s' ts := by
  unfold Reaches
  rw [run, h]
  dsimp only
  split
  · exact .inl rfl
  · exact .inr rfl

/-- The newest pending token is no function and binds weaker than the bound. -/
def Blocked (bound : Nat) (pending : List Token) : Prop :=
  ∀ t ∈ pending.head?, isFunction t = false ∧ binding t < bound

theorem blocked_nil (bound : Nat) : Blocked bound [] := by simp [Blocked]

theorem blocked_cons {bound : Nat} {t : Token} {pending : List Token} (ht : isFunction t = false)
    (hb : binding t < bound) : Blocked bound (t :: pending) := by
  intro u hu
  obtain rfl : t = u := by simpa using hu
  exact ⟨ht, hb⟩

theorem Blocked.mono {m n : Nat} {pending : List Token} (h : Blocked m pending) (hmn : m ≤ n) :
    Blocked n pending := fun t ht => ⟨(h t ht).1, Nat.lt_of_lt_of_le (h t ht).2 hmn⟩

theorem pending_concat {n : Nat} {ops : List Token} {op : Token} (hops : ∀ o ∈ ops, n ≤ binding o)
    (hop : n ≤ binding op) : ∀ o ∈ ops ++ [op], n ≤ binding o := by
  intro o ho
  rcases List.mem_append.1 ho with ho | ho
  · exact hops o ho
  · obtain rfl := List.mem_singleton.1 ho
    exact hop

/-- Only operators bind. -/
theorem operator_of_binding {t : Token} (h : 1 ≤ binding t) :
    t ≠ leftParen ∧ isFunction t = false := by
  cases t <;> simp_all [binding, isFunction]

theorem binding_le (t : Token) : binding t ≤ binding caret := by
  cases t <;> simp [binding]

/-- An operator that associates to the left takes off what binds at least as strongly, up to what blocks it. -/
theorem popOperators_append {op : Token} (hleft : isRightAssociative op = false)
    (hop : 1 ≤ binding op) {ops pending : List Token} (hops : ∀ o ∈ ops, binding op ≤ binding o)
    (hb : Blocked (binding op) pending) (output : List Token) :
    popOperators op (ops ++ pending) output = (pending, ops.reverse ++ output) := by
  induction ops generalizing output with
  | nil =>
    cases pending with
    | nil => rfl
    | cons t pending =>
      -- What blocks is a parenthesis or binds weaker.
      have hlt := (hb t rfl).2
      rw [List.nil_append, popOperators]
      split
      · rfl
      · rw [if_neg]
        · rfl
        · simp only [Bool.or_eq_true, Bool.and_eq_true, decide_eq_true_eq, not_or, not_and]
          omega
  | cons o ops ih =>
    obtain ⟨ho, hrest⟩ := List.forall_mem_cons.1 hops
    obtain ⟨hparen, hfun⟩ := operator_of_binding (Nat.le_trans hop ho)
    rw [List.cons_append, popOperators, if_neg (by simp [hparen, hfun]), if_pos, ih hrest]
    · simp
    · simp only [hleft, Bool.or_eq_true, Bool.and_eq_true, decide_eq_true_eq, Bool.not_false,
        and_true]
      omega

/-- A power takes nothing off. -/
theorem popOperators_caret (pending output : List Token) :
    popOperators caret pending output = (pending, output) := by
  cases pending with
  | nil => rfl
  | cons t pending =>
    have hle := binding_le t
    rw [popOperators]
    split
    · rfl
    · rw [if_neg]
      simp only [isRightAssociative, Bool.or_eq_true, Bool.and_eq_true, decide_eq_true_eq,
        Bool.not_true, Bool.false_eq_true, and_false, or_false]
      omega

theorem popToParen_append {ops : List Token} (hops : ∀ o ∈ ops, 1 ≤ binding o)
    (pending output : List Token) :
    popToParen (ops ++ leftParen :: pending) output = some (pending, ops.reverse ++ output) := by
  induction ops generalizing output with
  | nil => rfl
  | cons o ops ih =>
    obtain ⟨ho, hrest⟩ := List.forall_mem_cons.1 hops
    have hparen := (operator_of_binding ho).1
    have hpop : popToParen ((o :: ops) ++ leftParen :: pending) output =
        popToParen (ops ++ leftParen :: pending) (o :: output) := by
      cases o <;> first | rfl | exact absurd rfl hparen
    rw [hpop, ih hrest]
    simp

theorem flush_eq {ops : List Token} (hops : ∀ o ∈ ops, 1 ≤ binding o) (output : List Token) :
    flush ops output = .ok (ops.reverse ++ output).reverse := by
  induction ops generalizing output with
  | nil => rfl
  | cons o ops ih =>
    obtain ⟨ho, hrest⟩ := List.forall_mem_cons.1 hops
    have hparen := (operator_of_binding ho).1
    have hmove : flush (o :: ops) output = flush ops (o :: output) := by
      cases o <;> first | rfl | exact absurd rfl hparen
    rw [hmove, ih hrest]
    simp

theorem step_operator (op : Operator) (output pending : List Token) (parenFollows : Bool) :
    step ⟨output, pending, true⟩ op.token parenFollows =
      .ok (pushOperator ⟨output, pending, true⟩ op.token) := by
  cases op <;> rfl

/-! ## Levels -/

namespace Level

/-- The newest token that was pending before binds weaker than this. -/
def bound : Level → Nat
  | sum => 1
  | term => 2
  | _ => 5

/-- What stays pending binds at least as strongly as this. -/
def loosest : Level → Nat
  | sum => 1
  | term => 2
  | signed | power => 3
  | atom => 5

end Level

/-- How the tokens of a level are read. -/
def Reads (l : Level) (ts : List Token) (t : Tree) : Prop :=
  ∀ output pending rest, Blocked l.bound pending → rest.head? ≠ some leftParen →
    ∃ out ops, (∀ o ∈ ops, l.loosest ≤ binding o) ∧
      ops.reverse ++ out = t.listing.reverse ++ output ∧
      Reaches ⟨output, pending, false⟩ (ts ++ rest) ⟨out, ops ++ pending, true⟩ rest

namespace Reads

variable {ts us : List Token} {t u : Tree}

/-- A formula of a level that binds stronger is one of a weaker level. -/
theorem weaken {l l' : Level} (h : Reads l ts t) (hbound : l'.bound ≤ l.bound)
    (hloosest : l'.loosest ≤ l.loosest) : Reads l' ts t := by
  intro output pending rest hb hrest
  obtain ⟨out, ops, hops, hlist, hreach⟩ := h output pending rest (hb.mono hbound) hrest
  exact ⟨out, ops, fun o ho => Nat.le_trans hloosest (hops o ho), hlist, hreach⟩

theorem number (q : Rat) : Reads .atom [.number q] (.number q) := by
  intro output pending rest _ _
  exact ⟨.number q :: output, [], by simp, rfl, reaches_of_step rfl⟩

theorem name {s : String} (h : isFunctionName s = false) : Reads .atom [.name s] (.atom s h) := by
  intro output pending rest _ hrest
  refine ⟨.name s :: output, [], by simp, rfl, reaches_of_step ?_⟩
  simp [step, h, hrest, State.emit]

/-- The closing parenthesis finds what stands between the parentheses written. -/
theorem enclosed (h : Reads .sum ts t) {output pending rest : List Token} {s : State}
    (hclose : closeParen ⟨t.listing.reverse ++ output, leftParen :: pending, true⟩ = .ok s) :
    Reaches ⟨output, pending, false⟩ (leftParen :: (ts ++ rightParen :: rest)) s rest := by
  obtain ⟨out, ops, hops, hlist, hreach⟩ :=
    h output (leftParen :: pending) (rightParen :: rest) (blocked_cons rfl (by decide)) (by simp)
  have hopen : Reaches ⟨output, pending, false⟩ (leftParen :: (ts ++ rightParen :: rest))
      ⟨output, leftParen :: pending, false⟩ (ts ++ rightParen :: rest) := reaches_of_step rfl
  refine (hopen.trans hreach).trans (reaches_of_step ?_)
  rw [step, ← hclose, closeParen, closeParen, popToParen_append hops, hlist]
  rfl

theorem paren (h : Reads .sum ts t) : Reads .atom (leftParen :: (ts ++ [rightParen])) t := by
  intro output pending rest hb _
  refine ⟨t.listing.reverse ++ output, [], by simp, rfl, ?_⟩
  have hclose : closeParen ⟨t.listing.reverse ++ output, leftParen :: pending, true⟩ =
      .ok ⟨t.listing.reverse ++ output, pending, true⟩ := by
    -- What was pending is no function, so the parentheses are not those of a call.
    cases pending with
    | nil => rfl
    | cons p pending => simp [closeParen, popToParen, (hb p rfl).1]
  simpa using h.enclosed hclose

theorem call {s : String} (hs : isFunctionName s = true) (h : Reads .sum ts t) :
    Reads .atom (.name s :: leftParen :: (ts ++ [rightParen])) (.call s hs t) := by
  intro output pending rest _ _
  refine ⟨.name s :: (t.listing.reverse ++ output), [], by simp, by simp [Tree.listing], ?_⟩
  have hname : Reaches ⟨output, pending, false⟩ (.name s :: leftParen :: (ts ++ rightParen :: rest))
      ⟨output, .name s :: pending, false⟩ (leftParen :: (ts ++ rightParen :: rest)) :=
    reaches_of_step (by simp [step, hs, State.push])
  have hclose : closeParen ⟨t.listing.reverse ++ output, leftParen :: .name s :: pending, true⟩ =
      .ok ⟨.name s :: (t.listing.reverse ++ output), pending, true⟩ := by
    simp [closeParen, popToParen, isFunction, hs]
  simpa using hname.trans (h.enclosed hclose)

/-- A sum or a product: the operator completes what stands before it. -/
theorem binary {l l' : Level} {op : Operator} (hleft : isRightAssociative op.token = false)
    (hl : binding op.token = l.bound) (hloosest : binding op.token = l.loosest)
    (hop : 1 ≤ binding op.token) (hbound : binding op.token < l'.bound)
    (hweak : l.loosest ≤ l'.loosest) (ht : Reads l ts t) (hu : Reads l' us u) :
    Reads l (ts ++ op.token :: us) (.binary op t u) := by
  intro output pending rest hb hrest
  obtain ⟨hparen, hfun⟩ := operator_of_binding hop
  obtain ⟨out, ops, hops, hlist, hreach⟩ :=
    ht output pending (op.token :: (us ++ rest)) hb (by simpa using hparen)
  obtain ⟨out', ops', hops', hlist', hreach'⟩ :=
    hu (ops.reverse ++ out) (op.token :: pending) rest (blocked_cons hfun hbound) hrest
  refine ⟨out', ops' ++ [op.token], ?_, ?_, ?_⟩
  · exact pending_concat (fun o ho => Nat.le_trans hweak (hops' o ho)) (Nat.le_of_eq hloosest.symm)
  · simp [hlist', hlist, Tree.listing]
  · have hstep : Reaches ⟨out, ops ++ pending, true⟩ (op.token :: (us ++ rest))
        ⟨ops.reverse ++ out, op.token :: pending, false⟩ (us ++ rest) := by
      refine reaches_of_step ?_
      rw [← hloosest] at hops
      rw [← hl] at hb
      rw [step_operator, pushOperator, popOperators_append hleft hop hops hb]
    have hall := (hreach.trans hstep).trans hreach'
    simpa using hall

theorem add {op : Operator} (hop : op.isAdditive = true) (ht : Reads .sum ts t)
    (hu : Reads .term us u) : Reads .sum (ts ++ op.token :: us) (.binary op t u) := by
  have hbinding : binding op.token = 1 ∧ isRightAssociative op.token = false := by
    cases op <;> simp_all [Operator.isAdditive, Operator.token, binding, isRightAssociative]
  exact binary hbinding.2 hbinding.1 hbinding.1 (Nat.le_of_eq hbinding.1.symm)
    (by rw [hbinding.1]; decide) (by decide) ht hu

theorem multiply {op : Operator} (hop : op.isMultiplicative = true) (ht : Reads .term ts t)
    (hu : Reads .signed us u) : Reads .term (ts ++ op.token :: us) (.binary op t u) := by
  have hbinding : binding op.token = 2 ∧ isRightAssociative op.token = false := by
    cases op <;> simp_all [Operator.isMultiplicative, Operator.token, binding, isRightAssociative]
  exact binary hbinding.2 hbinding.1 hbinding.1 (by rw [hbinding.1]; decide)
    (by rw [hbinding.1]; decide) (by decide) ht hu

theorem minusSign (h : Reads .signed ts t) : Reads .signed (minus :: ts) (.negate t) := by
  intro output pending rest _ hrest
  obtain ⟨out, ops, hops, hlist, hreach⟩ :=
    h output (negate :: pending) rest (blocked_cons rfl (by decide)) hrest
  refine ⟨out, ops ++ [negate], ?_, ?_, ?_⟩
  · exact pending_concat hops (by decide)
  · simp [hlist, Tree.listing]
  · have hstep : Reaches ⟨output, pending, false⟩ (minus :: (ts ++ rest))
        ⟨output, negate :: pending, false⟩ (ts ++ rest) := reaches_of_step rfl
    simpa using hstep.trans hreach

theorem plusSign (h : Reads .signed ts t) : Reads .signed (plus :: ts) t := by
  intro output pending rest hb hrest
  obtain ⟨out, ops, hops, hlist, hreach⟩ := h output pending rest hb hrest
  have hstep : Reaches ⟨output, pending, false⟩ (plus :: (ts ++ rest))
      ⟨output, pending, false⟩ (ts ++ rest) := reaches_of_step rfl
  exact ⟨out, ops, hops, hlist, hstep.trans hreach⟩

theorem raise (ht : Reads .atom ts t) (hu : Reads .signed us u) :
    Reads .power (ts ++ caret :: us) (.binary .power t u) := by
  intro output pending rest hb hrest
  obtain ⟨out, ops, hops, hlist, hreach⟩ :=
    ht output pending (caret :: (us ++ rest)) hb (by simp)
  -- Nothing binds as strongly as an atom, so nothing is left pending by one.
  obtain rfl : ops = [] := by
    cases ops with
    | nil => rfl
    | cons o ops =>
      have hge := hops o List.mem_cons_self
      have hle := binding_le o
      simp only [Level.loosest, binding] at hge hle
      omega
  obtain ⟨out', ops', hops', hlist', hreach'⟩ :=
    hu out (caret :: pending) rest (blocked_cons rfl (by decide)) hrest
  refine ⟨out', ops' ++ [caret], ?_, ?_, ?_⟩
  · exact pending_concat hops' (by decide)
  · rw [List.reverse_nil, List.nil_append] at hlist
    simp [hlist', hlist, Tree.listing, Operator.token]
  · have hstep : Reaches ⟨out, [] ++ pending, true⟩ (caret :: (us ++ rest))
        ⟨out, caret :: pending, false⟩ (us ++ rest) := by
      refine reaches_of_step ?_
      rw [List.nil_append, step, pushOperator, popOperators_caret]
      all_goals simp
    have hall := (hreach.trans hstep).trans hreach'
    simpa using hall

end Reads

/-- The tokens of every level are read as the grammar says. -/
theorem Derives.reads {l : Level} {ts : List Token} {t : Tree} (h : Derives l ts t) :
    Reads l ts t := by
  induction h with
  | sum _ ih => exact ih.weaken (by decide) (by decide)
  | add hop _ _ iht ihu => exact iht.add hop ihu
  | term _ ih => exact ih.weaken (by decide) (by decide)
  | multiply hop _ _ iht ihu => exact iht.multiply hop ihu
  | signed _ ih => exact ih.weaken (by decide) (by decide)
  | minusSign _ ih => exact ih.minusSign
  | plusSign _ ih => exact ih.plusSign
  | power _ ih => exact ih.weaken (by decide) (by decide)
  | raise _ _ iht ihu => exact iht.raise ihu
  | number q => exact .number q
  | name s h => exact .name h
  | paren _ ih => exact ih.paren
  | call s h _ ih => exact ih.call h

/-! ## Short rows of tokens -/

theorem length_popToParen {pending output pending' output' : List Token}
    (h : popToParen pending output = some (pending', output')) :
    pending'.length < pending.length := by
  fun_induction popToParen pending output with
  | case1 => simp at h
  | case2 output pending =>
    obtain ⟨rfl, -⟩ := Prod.mk.inj (Option.some.inj h)
    exact Nat.lt_succ_self _
  | case3 _ _ _ _ ih => exact Nat.lt_succ_of_lt (ih h)

theorem length_popOperators (op : Token) (pending output : List Token) :
    (popOperators op pending output).1.length ≤ pending.length := by
  fun_induction popOperators op pending output with
  | case1 => exact Nat.le_refl _
  | case2 => exact Nat.le_refl _
  | case3 _ _ _ _ _ ih => exact Nat.le_succ_of_le ih
  | case4 => exact Nat.le_refl _

theorem length_closeParen {s s' : State} (h : closeParen s = .ok s') :
    s'.pending.length ≤ s.pending.length := by
  unfold closeParen at h
  split at h
  · simp at h
  · rename_i f pending output hpop
    have hlen := length_popToParen hpop
    split at h <;> obtain rfl := Except.ok.inj h
    · exact Nat.le_of_lt (Nat.lt_of_succ_lt hlen)
    · exact Nat.le_of_lt hlen
  · obtain rfl := Except.ok.inj h
    exact Nat.zero_le _

/-- One token adds at most one pending token. -/
theorem length_step {s s' : State} {t : Token} {parenFollows : Bool}
    (h : step s t parenFollows = .ok s') : s'.pending.length ≤ s.pending.length + 1 := by
  have hoperator (op : Token) :
      (pushOperator s op).pending.length ≤ s.pending.length + 1 :=
    Nat.succ_le_succ (length_popOperators op s.pending s.output)
  unfold step at h
  split at h
  · obtain rfl := Except.ok.inj h
    exact Nat.le_succ _
  · split at h
    · obtain rfl := Except.ok.inj h
      exact Nat.le_refl _
    · split at h
      · simp at h
      · obtain rfl := Except.ok.inj h
        exact Nat.le_succ _
  · obtain rfl := Except.ok.inj h
    exact Nat.le_refl _
  · exact Nat.le_succ_of_le (length_closeParen h)
  · obtain rfl := Except.ok.inj h
    split
    · exact hoperator minus
    · exact Nat.le_refl _
  · obtain rfl := Except.ok.inj h
    split
    · exact hoperator plus
    · exact Nat.le_succ _
  · obtain rfl := Except.ok.inj h
    exact hoperator _

theorem step_ne_tooDeep (s : State) (t : Token) (parenFollows : Bool) (n : Nat) :
    step s t parenFollows ≠ .error (.tooDeep n) := by
  intro h
  unfold step at h
  split at h
  · simp at h
  · split at h
    · simp at h
    · split at h <;> simp at h
  · simp at h
  · unfold closeParen at h
    split at h
    · simp at h
    · split at h <;> simp at h
    · simp at h
  · simp at h
  · simp at h
  · simp at h

/-- Few tokens cannot leave too many pending. -/
theorem run_ne_tooDeep {s : State} {ts : List Token}
    (h : s.pending.length + ts.length ≤ maxPending) : run s ts ≠ .error (.tooDeep maxPending) := by
  induction ts generalizing s with
  | nil => simp [run]
  | cons t ts ih =>
    rw [List.length_cons] at h
    rw [run]
    cases hstep : step s t (ts.head? = some leftParen) with
    | error err =>
      intro herr
      have heq : err = .tooDeep maxPending := Except.error.inj herr
      exact step_ne_tooDeep s t _ _ (heq ▸ hstep)
    | ok s' =>
      have hlen := length_step hstep
      dsimp only
      rw [if_neg (by omega)]
      exact ih (by omega)

/-! ## Formulas -/

/-- A formula is put into the postfix order of its tree, unless too much is pending on the way, and this does not
happen to a formula of at most `maxPending` tokens. Evaluating the postfix order gives the canonical constructors,
applied along the tree. -/
theorem reading_follows_grammar {ts : List Token} {t : Tree} (h : Derives .sum ts t) :
    (ofInfix ts = .error (.tooDeep maxPending) ∨ ofInfix ts = .ok t.listing) ∧
      (ts.length ≤ maxPending → ofInfix ts = .ok t.listing) ∧ toExpr t.listing = .ok t.value := by
  obtain ⟨out, ops, hops, hlist, hreach⟩ := h.reads [] [] [] (blocked_nil _) (by simp)
  rw [List.append_nil, List.append_nil] at hreach
  rw [List.append_nil] at hlist
  have hflush : flush ops out = .ok t.listing := by
    rw [flush_eq hops, hlist, List.reverse_reverse]
  have hread : run State.initial ts = .error (.tooDeep maxPending) ∨ ofInfix ts = .ok t.listing := by
    refine hreach.imp_right fun hrun => ?_
    have hrun : run State.initial ts = .ok ⟨out, ops, true⟩ := hrun
    rw [ofInfix, hrun]
    exact hflush
  refine ⟨hread.imp_left fun hrun => ?_, fun hshort => ?_, toExpr_listing t⟩
  · rw [ofInfix, hrun]
  · exact hread.resolve_left (run_ne_tooDeep (by simpa [State.initial] using hshort))

/-- The formula `-x^-2 * sin(y)` is the product of the negative of a power and a call. -/
theorem reading_follows_grammar_signed_power :
    ofInfix [minus, name "x", caret, minus, number 2, times, name "sin", leftParen, name "y",
        rightParen] =
      .ok [name "x", number 2, negate, caret, negate, name "y", name "sin", times] := by
  have hx : isFunctionName "x" = false := by decide
  have hy : isFunctionName "y" = false := by decide
  have hsin : isFunctionName "sin" = true := by decide
  have hpower : Derives .power [name "x", caret, minus, number 2] _ :=
    .raise (.name "x" hx) (.minusSign (.signed (.power (.number 2))))
  have hcall : Derives .signed [name "sin", leftParen, name "y", rightParen] _ :=
    .signed (.power (.call "sin" hsin (.sum (.term (.signed (.power (.name "y" hy)))))))
  have hformula : Derives .sum _ (.binary .times _ _) :=
    .sum (.multiply rfl (.term (.minusSign (.signed hpower))) hcall)
  exact (reading_follows_grammar hformula).2.1 (by decide)

end SymbolicSolver.Postfix
