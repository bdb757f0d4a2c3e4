import SymbolicSolver.Postfix

/-!
# Infix expressions

In an infix expression operands and binary operators alternate, and function names and signs stand before the operand
they apply to. `Infix` says so as a grammar. `Next` and `Placed` say the same token by token, from left to right: they
keep track of whether an operand has just ended and of how many parentheses are open, and of nothing else.
-/

namespace SymbolicSolver.Postfix

open Token

/-! ## Infix expressions -/

/-- The operators that stand between two operands. -/
def isBinary : Token → Bool
  | plus | minus | times | divide | caret => true
  | _ => false

/-- The signs that may stand before an operand. -/
def isSign : Token → Bool
  | plus | minus => true
  | _ => false

/-- The two kinds of rows: whole expressions, and the operands that the operators separate. -/
inductive Part where
  | expression | operand

/-- The rows of tokens that are infix expressions, and those that are single operands. -/
inductive Infix : Part → List Token → Prop
  | number (q : Rat) : Infix .operand [number q]
  | atom {s : String} (h : isFunctionName s = false) : Infix .operand [name s]
  | paren {ts : List Token} (h : Infix .expression ts) :
      Infix .operand (leftParen :: (ts ++ [rightParen]))
  | sign {t : Token} {ts : List Token} (ht : isSign t = true) (h : Infix .operand ts) :
      Infix .operand (t :: ts)
  | call {s : String} {ts : List Token} (hs : isFunctionName s = true) (h : Infix .operand ts) :
      Infix .operand (name s :: ts)
  | single {ts : List Token} (h : Infix .operand ts) : Infix .expression ts
  | binary {op : Token} {ts us : List Token} (hop : isBinary op = true) (h : Infix .expression ts)
      (hu : Infix .operand us) : Infix .expression (ts ++ op :: us)

/-- Tokens with which an operand ends. -/
def endsOperand : Token → Bool
  | number _ | rightParen => true
  | name s => !isFunctionName s
  | _ => false

/-- Tokens with which an operand begins, signs apart. -/
def beginsOperand : Token → Bool
  | number _ | leftParen | name _ => true
  | _ => false

/-- The second token begins an operand where the first one has ended one. -/
def Adjacent (t u : Token) : Prop := endsOperand t = true ∧ beginsOperand u = true

/-! ## Rows token by token -/

/-- What one token in its place makes of the two things to keep track of: whether an operand has just ended, and the
number of open parentheses. -/
inductive Next : Bool → Nat → Token → Bool → Nat → Prop
  | number (q : Rat) (d : Nat) : Next false d (number q) true d
  | atom {s : String} (h : isFunctionName s = false) (d : Nat) : Next false d (name s) true d
  | call {s : String} (h : isFunctionName s = true) (d : Nat) : Next false d (name s) false d
  | sign {t : Token} (h : isSign t = true) (d : Nat) : Next false d t false d
  | opening (d : Nat) : Next false d leftParen false (d + 1)
  | closing (d : Nat) : Next true (d + 1) rightParen true d
  | operator {t : Token} (h : isBinary t = true) (d : Nat) : Next true d t false d

/-- The rows all of whose tokens are in place and which end after an operand with no parenthesis open. -/
inductive Placed : Bool → Nat → List Token → Prop
  | done : Placed true 0 []
  | next {a a' : Bool} {d d' : Nat} {t : Token} {ts : List Token} (ht : Next a d t a' d')
      (h : Placed a' d' ts) : Placed a d (t :: ts)

/-- An infix expression stands in place wherever an operand must follow. -/
theorem Infix.placed {p : Part} {ts : List Token} (h : Infix p ts) {d : Nat} {rest : List Token}
    (hrest : Placed true d rest) : Placed false d (ts ++ rest) := by
  induction h generalizing d rest with
  | number q => exact .next (.number q d) hrest
  | atom hs => exact .next (.atom hs d) hrest
  | paren _ ih =>
    have hclosed : Placed true (d + 1) (rightParen :: rest) := .next (.closing d) hrest
    simpa using Placed.next (.opening d) (ih hclosed)
  | sign ht _ ih => exact .next (.sign ht d) (ih hrest)
  | call hs _ ih => exact .next (.call hs d) (ih hrest)
  | single _ ih => exact ih hrest
  | binary hop _ _ ih ihu =>
    have hright := Placed.next (.operator hop d) (ihu hrest)
    simpa using ih hright

/-- A row that goes on after an operand either ends there, or closes a parenthesis, or has an operator next. -/
theorem Placed.after {d : Nat} {ts : List Token} (h : Placed true d ts) :
    (ts = [] ∧ d = 0) ∨ (∃ us d', ts = rightParen :: us ∧ d = d' + 1 ∧ Placed true d' us) ∨
      ∃ op us, ts = op :: us ∧ isBinary op = true ∧ Placed false d us := by
  cases h with
  | done => exact .inl ⟨rfl, rfl⟩
  | next ht h =>
    cases ht with
    | closing => exact .inr (.inl ⟨_, _, rfl, rfl, h⟩)
    | operator hop => exact .inr (.inr ⟨_, _, rfl, hop, h⟩)

/-- What an expression ends before: the end of the row or a closing parenthesis. -/
def EndsBefore (d : Nat) (rest : List Token) : Prop :=
  (rest = [] ∧ d = 0) ∨ ∃ us d', rest = rightParen :: us ∧ d = d' + 1 ∧ Placed true d' us

/-- A row in which an operand must come first begins with an operand, and with an expression that goes on until a
parenthesis closes or the row ends. The induction is on the length, because the expression inside a pair of
parentheses is found before the operand that it makes up. -/
theorem Placed.split (n : Nat) : ∀ {ts : List Token} {d : Nat}, ts.length ≤ n →
    Placed false d ts →
    (∃ us rest, ts = us ++ rest ∧ Infix .operand us ∧ Placed true d rest) ∧
      ∃ us rest, ts = us ++ rest ∧ Infix .expression us ∧ EndsBefore d rest := by
  induction n with
  | zero =>
    intro ts d hlen h
    obtain rfl := List.eq_nil_of_length_eq_zero (Nat.le_zero.1 hlen)
    cases h
  | succ n ih =>
    intro ts d hlen h
    have hoperand : ∃ us rest, ts = us ++ rest ∧ Infix .operand us ∧ Placed true d rest := by
      cases h with
      | next ht h =>
        rename_i t us
        have hus : us.length ≤ n := by simpa using hlen
        cases ht with
        | number q => exact ⟨[_], us, rfl, .number q, h⟩
        | atom hs => exact ⟨[_], us, rfl, .atom hs, h⟩
        | call hs =>
          obtain ⟨vs, rest, rfl, hop, hrest⟩ := (ih hus h).1
          exact ⟨_ :: vs, rest, rfl, .call hs hop, hrest⟩
        | sign hs =>
          obtain ⟨vs, rest, rfl, hop, hrest⟩ := (ih hus h).1
          exact ⟨_ :: vs, rest, rfl, .sign hs hop, hrest⟩
        | opening =>
          obtain ⟨vs, rest, rfl, hexp, hend⟩ := (ih hus h).2
          rcases hend with ⟨-, hd⟩ | ⟨ws, d', rfl, hd, hws⟩
          · exact absurd hd (Nat.succ_ne_zero d)
          · obtain rfl := Nat.succ.inj hd
            exact ⟨leftParen :: (vs ++ [rightParen]), ws, by simp, .paren hexp, hws⟩
    refine ⟨hoperand, ?_⟩
    -- Operands are added to the expression until none follows.
    suffices hgrow : ∀ (m : Nat) (us rest : List Token), rest.length ≤ m → rest.length ≤ n →
        Infix .expression us → Placed true d rest →
        ∃ vs rest', us ++ rest = vs ++ rest' ∧ Infix .expression vs ∧ EndsBefore d rest' by
      obtain ⟨us, rest, rfl, hus, hrest⟩ := hoperand
      have hpos : us ≠ [] := by
        rintro rfl
        cases hus
      have hrestLen : rest.length ≤ n := by
        have := List.length_pos_iff.2 hpos
        simp only [List.length_append] at hlen
        omega
      exact hgrow _ us rest (Nat.le_refl _) hrestLen (.single hus) hrest
    intro m
    induction m with
    | zero =>
      intro us rest hm _ hus hrest
      obtain rfl := List.eq_nil_of_length_eq_zero (Nat.le_zero.1 hm)
      cases hrest
      exact ⟨us, [], rfl, hus, .inl ⟨rfl, rfl⟩⟩
    | succ m ihm =>
      intro us rest hm hn hus hrest
      rcases hrest.after with hnil | hclose | ⟨op, ws, rfl, hop, hws⟩
      · exact ⟨us, rest, rfl, hus, .inl hnil⟩
      · exact ⟨us, rest, rfl, hus, .inr hclose⟩
      · have hwsLen : ws.length ≤ n := by simp at hn; omega
        obtain ⟨xs, rest', rfl, hxs, hrest'⟩ := (ih hwsLen hws).1
        simp only [List.length_cons, List.length_append] at hm hn
        have hmore := ihm (us ++ op :: xs) rest' (by omega) (by omega) (.binary hop hus hxs) hrest'
        simpa using hmore

/-- The rows all of whose tokens are in place are the infix expressions. -/
theorem infix_iff_placed {ts : List Token} : Infix .expression ts ↔ Placed false 0 ts := by
  constructor
  · intro h
    simpa using h.placed .done
  · intro h
    obtain ⟨us, rest, rfl, hus, hend⟩ := (Placed.split _ (Nat.le_refl _) h).2
    rcases hend with ⟨rfl, -⟩ | ⟨_, _, _, hd, _⟩
    · simpa using hus
    · exact absurd hd (by omega)

end SymbolicSolver.Postfix
