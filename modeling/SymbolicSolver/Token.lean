import SymbolicSolver.Error
import SymbolicSolver.Number.Rational
import SymbolicSolver.Text.Blank

/-!
# Tokens

A formula is cut into numbers, names, operators and parentheses. Decimal numbers are exact. Blanks separate
tokens and mean nothing else.
-/

namespace SymbolicSolver

/-- A token of a formula. `negate` is the sign that stands before its operand; it arises when a formula is put
into postfix order, and no text yields it directly. -/
inductive Token where
  | number (q : Rat)
  | name (s : String)
  | plus | minus | times | divide | caret
  | negate
  | leftParen | rightParen
  deriving DecidableEq

namespace Token

/-! ## Lexemes -/

def isDigit (c : Char) : Bool := '0' ≤ c && c ≤ '9'

def isLetter (c : Char) : Bool := ('a' ≤ c && c ≤ 'z') || ('A' ≤ c && c ≤ 'Z')

/-- A character with which a name begins. -/
def startsName (c : Char) : Bool := isLetter c || c == '_'

/-- A character with which a name goes on. -/
def continuesName (c : Char) : Bool := isLetter c || isDigit c || c == '_'

/-- The value of a digit. -/
def digitValue (c : Char) : Nat := c.toNat - '0'.toNat

/-- The number that a row of decimal digits writes. -/
def digitsValue (ds : List Char) : Nat :=
  ds.foldl (fun n c => 10 * n + digitValue c) 0

/-- The exact value of a decimal number with the given digits before and after the point. -/
def decimalValue (whole fraction : List Char) : Rat :=
  mkRat (digitsValue (whole ++ fraction)) (Nat.pow 10 fraction.length)

/-- The token of a single character; a doubled star counts as one character here. -/
def ofSymbol? : Char → Option Token
  | '(' => some leftParen
  | ')' => some rightParen
  | '+' => some plus
  | '-' => some minus
  | '*' => some times
  | '/' => some divide
  | '^' => some caret
  | 'π' => some (name "pi")
  | '√' => some (name "sqrt")
  | _ => none

/-- Reads the digits after the point of a number, given those before it, and returns the number and what
follows it. A second point is refused. -/
def readFraction (whole cs : List Char) : Except Error (Rat × List Char) :=
  let fraction := cs.takeWhile isDigit
  match cs.dropWhile isDigit with
  | '.' :: _ => .error (.invalidNumber (String.ofList (whole ++ '.' :: fraction ++ ['.'])))
  | rest => .ok (decimalValue whole fraction, rest)

/-- Reads what follows the digits before the point of a number. -/
def readAfterWhole (whole : List Char) : List Char → Except Error (Rat × List Char)
  | '.' :: cs => readFraction whole cs
  | cs => .ok (decimalValue whole [], cs)

theorem length_dropWhile_le (p : Char → Bool) (cs : List Char) :
    (cs.dropWhile p).length ≤ cs.length :=
  (List.dropWhile_suffix p).length_le

theorem length_readFraction {whole cs rest : List Char} {q : Rat}
    (h : readFraction whole cs = .ok (q, rest)) : rest.length ≤ cs.length := by
  have hd := length_dropWhile_le isDigit cs
  unfold readFraction at h
  split at h
  · simp at h
  · simp only [Except.ok.injEq, Prod.mk.injEq] at h
    rw [← h.2]
    exact hd

theorem length_readAfterWhole {whole cs rest : List Char} {q : Rat}
    (h : readAfterWhole whole cs = .ok (q, rest)) : rest.length ≤ cs.length := by
  unfold readAfterWhole at h
  split at h
  · have := length_readFraction h
    simp only [List.length_cons]
    omega
  · simp only [Except.ok.injEq, Prod.mk.injEq] at h
    exact h.2 ▸ Nat.le_refl _

/-! ## Scanning -/

/-- Cuts a text into tokens, or fails at the first character that begins none. -/
def scan : List Char → Except Error (List Token)
  | [] => .ok []
  | c :: cs =>
    if Text.isBlank c then scan cs
    else if c = '*' ∧ cs.head? = some '*' then (scan cs.tail).map (caret :: ·)
    else
      match ofSymbol? c with
      | some t => (scan cs).map (t :: ·)
      | none =>
        if startsName c then
          (scan (cs.dropWhile continuesName)).map
            (name (String.ofList (c :: cs.takeWhile continuesName)) :: ·)
        else if isDigit c then
          match _h : readAfterWhole (c :: cs.takeWhile isDigit) (cs.dropWhile isDigit) with
          | .ok (q, rest) => (scan rest).map (number q :: ·)
          | .error err => .error err
        else if c = '.' ∧ cs.head?.any isDigit then
          match _h : readFraction [] cs with
          | .ok (q, rest) => (scan rest).map (number q :: ·)
          | .error err => .error err
        else .error (.unexpectedChar c)
termination_by cs => cs.length
decreasing_by
  · simp
  · simp only [List.length_tail, List.length_cons]
    omega
  · simp
  · have := length_dropWhile_le continuesName cs
    simp only [List.length_cons]
    omega
  · have := length_readAfterWhole _h
    have := length_dropWhile_le isDigit cs
    simp only [List.length_cons]
    omega
  · have := length_readFraction _h
    simp only [List.length_cons]
    omega

/-- The tokens of a text. -/
def tokenize (s : String) : Except Error (List Token) := scan s.toList

/-! ## Text -/

/-- The text of a token; a rational is written in lowest terms. -/
def text : Token → String
  | number q => Rational.text q
  | name s => s
  | plus => "+"
  | minus => "-"
  | times => "*"
  | divide => "/"
  | caret => "^"
  | negate => "neg"
  | leftParen => "("
  | rightParen => ")"

/-- Tokens separated by single spaces. -/
def listText (ts : List Token) : String := String.intercalate " " (ts.map text)

end Token

end SymbolicSolver
