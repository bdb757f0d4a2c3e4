import SymbolicSolver.Text.Blank
import SymbolicSolver.Token

/-!
# Plain arithmetic

Texts of digits, operators and parentheses are evaluated at once in floating point: sums and products from
left to right, powers from right to left, and a sign between products and powers. Operators whose operands
are complete are applied as soon as one that binds no more strongly follows.
-/

namespace SymbolicSolver.Query

/-- A character of plain arithmetic. -/
def isArithmeticChar (c : Char) : Bool :=
  Token.isDigit c || ".+-*/()".toList.contains c || Text.isBlank c

/-- Whether a text is plain arithmetic. -/
def isArithmetic (s : String) : Bool := s.toList ≠ [] && s.toList.all isArithmeticChar

namespace Arithmetic

/-- The binary operators. -/
inductive Op where
  | add | sub | mul | div | pow

/-- What waits for its right operand or for its closing parenthesis. -/
inductive Pending where
  | sign (negative : Bool)
  | op (o : Op)
  | paren

/-- How strongly an operator binds. -/
def Op.binding : Op → Nat
  | add | sub => 1
  | mul | div => 2
  | pow => 4

/-- How strongly a pending sign or operator binds. -/
def Pending.binding : Pending → Nat
  | sign _ => 3
  | op o => o.binding
  | paren => 0

/-- The value of an operator. -/
def Op.apply : Op → Float → Float → Float
  | add, x, y => x + y
  | sub, x, y => x - y
  | mul, x, y => x * y
  | div, x, y => x / y
  | pow, x, y => x.pow y

/-- Applies a pending sign or operator to the values, the newest first. -/
def Pending.run? : Pending → List Float → Option (List Float)
  | sign negative, x :: xs => some ((if negative then -x else x) :: xs)
  | op o, y :: x :: xs => some (o.apply x y :: xs)
  | _, _ => none

/-- The state between two characters: pending signs and operators and the values, the newest first, and whether
a value has just ended. -/
structure State where
  pending : List Pending
  values : List Float
  afterValue : Bool

/-- Applies the pending operators that bind at least as strongly as `o`, or more strongly when `o` associates to
the right. -/
def applyBefore? (o : Op) : List Pending → List Float → Option (List Pending × List Float)
  | [], xs => some ([], xs)
  | .paren :: ps, xs => some (.paren :: ps, xs)
  | p :: ps, xs =>
    let first : Bool := match o with
      | .pow => o.binding < p.binding
      | _ => o.binding ≤ p.binding
    if first then (p.run? xs).bind (applyBefore? o ps) else some (p :: ps, xs)

/-- Applies the pending operators down to the opening parenthesis and takes it off. -/
def closeParen? : List Pending → List Float → Option (List Pending × List Float)
  | [], _ => none
  | .paren :: ps, xs => some (ps, xs)
  | p :: ps, xs => (p.run? xs).bind (closeParen? ps)

/-- Applies all pending operators; an open parenthesis is refused. -/
def finish? : List Pending → List Float → Option (List Float)
  | [], xs => some xs
  | .paren :: _, _ => none
  | p :: ps, xs => (p.run? xs).bind (finish? ps)

/-- Reads a binary operator. -/
def State.binary? (s : State) (o : Op) : Option State :=
  (applyBefore? o s.pending s.values).map fun r => ⟨.op o :: r.1, r.2, false⟩

/-- Reads a character that is no digit. -/
def State.symbol? (s : State) (c : Char) : Option State :=
  if s.afterValue then
    match c with
    | '+' => s.binary? .add
    | '-' => s.binary? .sub
    | '*' => s.binary? .mul
    | '/' => s.binary? .div
    | '^' => s.binary? .pow
    | ')' => (closeParen? s.pending s.values).map fun r => ⟨r.1, r.2, true⟩
    | _ => none
  else
    match c with
    | '+' => some { s with pending := .sign false :: s.pending }
    | '-' => some { s with pending := .sign true :: s.pending }
    | '(' => some { s with pending := .paren :: s.pending }
    | _ => none

/-- Reads a number, if one may stand here. -/
def State.number? (s : State) (whole fraction : List Char) : Option State :=
  if s.afterValue then none
  else
    let x := Float.ofScientific (Token.digitsValue (whole ++ fraction)) true fraction.length
    some { s with values := x :: s.values, afterValue := true }

/-- What follows the digits before the point: the digits after it and the rest. -/
def splitFraction : List Char → List Char × List Char
  | '.' :: cs => (cs.takeWhile Token.isDigit, cs.dropWhile Token.isDigit)
  | cs => ([], cs)

theorem length_splitFraction (cs : List Char) : (splitFraction cs).2.length ≤ cs.length := by
  unfold splitFraction
  split
  · have := Token.length_dropWhile_le Token.isDigit
    simp only [List.length_cons]
    exact Nat.le_succ_of_le (this _)
  · exact Nat.le_refl _

/-- Reads a text of arithmetic, with `^` for powers. -/
def run? (s : State) : List Char → Option State
  | [] => some s
  | c :: cs =>
    if Token.isDigit c then
      let whole := c :: cs.takeWhile Token.isDigit
      let rest := splitFraction (cs.dropWhile Token.isDigit)
      match s.number? whole rest.1 with
      | some s => run? s rest.2
      | none => none
    else
      match s.symbol? c with
      | some s => run? s cs
      | none => none
termination_by cs => cs.length
decreasing_by
  · have h1 := length_splitFraction (cs.dropWhile Token.isDigit)
    have h2 := Token.length_dropWhile_le Token.isDigit cs
    simp only [List.length_cons]
    omega
  · simp

/-- Doubled stars as single characters. -/
def withCarets : List Char → List Char
  | '*' :: '*' :: cs => '^' :: withCarets cs
  | c :: cs => c :: withCarets cs
  | [] => []

/-- The value of a text of plain arithmetic, if it is well formed. -/
def eval? (s : String) : Option Float :=
  (run? ⟨[], [], false⟩ (withCarets s.toList)).bind fun s =>
    if s.afterValue then
      match finish? s.pending s.values with
      | some [x] => some x
      | _ => none
    else none

end Arithmetic

end SymbolicSolver.Query
