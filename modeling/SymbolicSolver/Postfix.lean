import SymbolicSolver.Expr.Apply
import SymbolicSolver.Token

/-!
# Reading formulas

Tokens in infix order are put into postfix order with one stack of pending operators, parentheses and
functions, and the postfix sequence is evaluated into an expression by the canonical constructors.

Sums bind weakest, then products, then a sign before an operand, then powers; powers associate to the
right, sums and products to the left. A function is written after its argument in postfix order.
-/

namespace SymbolicSolver

open Token

namespace Postfix

/-- The largest number of operators, parentheses and functions that may be pending at once. -/
def maxPending : Nat := 256

/-- How strongly an operator binds. -/
def binding : Token → Nat
  | plus | minus => 1
  | times | divide => 2
  | negate => 3
  | caret => 4
  | _ => 0

/-- Powers and signs associate to the right. -/
def isRightAssociative : Token → Bool
  | caret | negate => true
  | _ => false

/-- Whether a name is that of a function. -/
def isFunctionName (s : String) : Bool :=
  s = "sqrt" || s = "exp" || (Func.ofName? s).isSome

def isFunction : Token → Bool
  | name s => isFunctionName s
  | _ => false

/-! ## Infix to postfix -/

/-- The state between two tokens: the postfix output with the newest token first, the pending tokens with
the newest first, and whether the last token ended a value. -/
structure State where
  output : List Token
  pending : List Token
  afterValue : Bool

namespace State

def initial : State := ⟨[], [], false⟩

/-- Writes an operand. -/
def emit (s : State) (t : Token) : State := { s with output := t :: s.output, afterValue := true }

/-- Keeps a token pending; a value must follow. -/
def push (s : State) (t : Token) : State := { s with pending := t :: s.pending, afterValue := false }

end State

/-- Moves pending tokens to the output until an opening parenthesis comes off; fails if there is none. -/
def popToParen : List Token → List Token → Option (List Token × List Token)
  | [], _ => none
  | leftParen :: pending, output => some (pending, output)
  | t :: pending, output => popToParen pending (t :: output)

/-- Moves pending operators that bind before `op` to the output. -/
def popOperators (op : Token) : List Token → List Token → List Token × List Token
  | [], output => ([], output)
  | t :: pending, output =>
    if t = leftParen || isFunction t then (t :: pending, output)
    else if binding op < binding t || (binding op = binding t && !isRightAssociative op) then
      popOperators op pending (t :: output)
    else (t :: pending, output)

/-- Closes a parenthesis; a function that stands before it is complete. -/
def closeParen (s : State) : Except Error State :=
  match popToParen s.pending s.output with
  | none => .error .orphanParenthesis
  | some (f :: pending, output) =>
    if isFunction f then .ok ⟨f :: output, pending, true⟩ else .ok ⟨output, f :: pending, true⟩
  | some ([], output) => .ok ⟨output, [], true⟩

/-- Reads a binary operator. -/
def pushOperator (s : State) (op : Token) : State :=
  let popped := popOperators op s.pending s.output
  ⟨popped.2, op :: popped.1, false⟩

/-- Reads one token; whether an opening parenthesis follows decides between a name and a call. -/
def step (s : State) (t : Token) (parenFollows : Bool) : Except Error State :=
  match t with
  | number _ => .ok (s.emit t)
  | name n =>
    if isFunctionName n then .ok (s.push t)
    else if parenFollows then .error (.unknownFunction n)
    else .ok (s.emit t)
  | leftParen => .ok (s.push t)
  | rightParen => closeParen s
  | minus => .ok (if s.afterValue then pushOperator s minus else s.push negate)
  | plus => .ok (if s.afterValue then pushOperator s plus else s)
  | t => .ok (pushOperator s t)

/-- Reads the tokens in order; too many pending tokens are refused. -/
def run : State → List Token → Except Error State
  | s, [] => .ok s
  | s, t :: ts =>
    match step s t (ts.head? = some leftParen) with
    | .error err => .error err
    | .ok s => if maxPending < s.pending.length then .error (.tooDeep maxPending) else run s ts

/-- Moves the pending operators to the output; a parenthesis among them was never closed. -/
def flush : List Token → List Token → Except Error (List Token)
  | [], output => .ok output.reverse
  | leftParen :: _, _ => .error .unclosedParenthesis
  | t :: pending, output => flush pending (t :: output)

/-- The tokens in postfix order. -/
def ofInfix (ts : List Token) : Except Error (List Token) :=
  match run State.initial ts with
  | .error err => .error err
  | .ok s => flush s.pending s.output

/-! ## Postfix to expressions -/

/-- The constant or variable of a name. -/
def atom (s : String) : Expr :=
  if s = "pi" then .pi
  else if s = "E" then .e
  else if s = "I" then .i
  else if s = "oo" then .infinity
  else .var s

/-- The value of a named function, if the name is that of a function. -/
def call? (s : String) (x : Expr) : Option Expr :=
  if s = "sqrt" then some x.sqrt
  else if s = "exp" then some x.exp
  else (Func.ofName? s).map fun f => Expr.apply f x

/-- The value of a binary operator. -/
def combine? (op : Token) (a b : Expr) : Option Expr :=
  match op with
  | plus => some (a + b)
  | minus => some (a - b)
  | times => some (a * b)
  | divide => some (a / b)
  | caret => some (Expr.power a b)
  | _ => none

/-- One step of evaluation on a stack of expressions, the newest first. -/
def evalStep (stack : List Expr) (t : Token) : Option (List Expr) :=
  match t with
  | number q => some (.rat q :: stack)
  | negate =>
    match stack with
    | a :: rest => some (-a :: rest)
    | [] => none
  | name s =>
    if isFunctionName s then
      match stack with
      | x :: rest => (call? s x).map (· :: rest)
      | [] => none
    else some (atom s :: stack)
  | op =>
    match stack with
    | b :: a :: rest => (combine? op a b).map (· :: rest)
    | _ => none

/-- Evaluates a postfix sequence; it must leave exactly one expression. -/
def toExpr (ts : List Token) : Except Error Expr :=
  match ts.foldlM evalStep [] with
  | some [x] => .ok x
  | _ => .error .invalidExpression

end Postfix

/-- Reads a formula. A text without tokens is refused. -/
def Expr.read (s : String) : Except Error Expr :=
  match tokenize s with
  | .error err => .error err
  | .ok [] => .error .emptyInput
  | .ok ts =>
    match Postfix.ofInfix ts with
    | .error err => .error err
    | .ok rpn => Postfix.toExpr rpn

end SymbolicSolver
