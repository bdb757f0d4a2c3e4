/-!
# Named functions

The functions of one argument that expressions may apply, with their names in texts. Square roots and
exponentials are powers and have no place here.
-/

namespace SymbolicSolver

/-- A function of one argument. -/
inductive Func where
  | sin | cos | tan | cot | sec | csc
  | asin | acos | atan | acot | asec | acsc
  | sinh | cosh | tanh
  | log
  deriving DecidableEq, Repr

namespace Func

/-- The name in texts. -/
def name : Func → String
  | sin => "sin" | cos => "cos" | tan => "tan"
  | cot => "cot" | sec => "sec" | csc => "csc"
  | asin => "asin" | acos => "acos" | atan => "atan"
  | acot => "acot" | asec => "asec" | acsc => "acsc"
  | sinh => "sinh" | cosh => "cosh" | tanh => "tanh"
  | log => "log"

/-- The name in capitals, as sorting keys write it. -/
def capitalName : Func → String
  | sin => "SIN" | cos => "COS" | tan => "TAN"
  | cot => "COT" | sec => "SEC" | csc => "CSC"
  | asin => "ASIN" | acos => "ACOS" | atan => "ATAN"
  | acot => "ACOT" | asec => "ASEC" | acsc => "ACSC"
  | sinh => "SINH" | cosh => "COSH" | tanh => "TANH"
  | log => "LOG"

/-- Every function. -/
def all : List Func :=
  [sin, cos, tan, cot, sec, csc, asin, acos, atan, acot, asec, acsc, sinh, cosh, tanh, log]

/-- The function of a name; `ln` is another name of the logarithm. -/
def ofName? (s : String) : Option Func :=
  if s = "ln" then some log else all.find? (fun f => f.name = s)

/-- The circular functions repeat with a period. -/
def isCircular : Func → Bool
  | sin | cos | tan | cot | sec | csc => true
  | _ => false

/-- The inverse of a circular function. -/
def inverse? : Func → Option Func
  | sin => some asin | cos => some acos | tan => some atan
  | cot => some acot | sec => some asec | csc => some acsc
  | _ => none

end Func

end SymbolicSolver
