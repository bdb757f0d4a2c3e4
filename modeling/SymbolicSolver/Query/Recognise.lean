import SymbolicSolver.Text.Lowercase
import SymbolicSolver.Text.Search

/-!
# Recognising mathematics

Whether a text looks like mathematics: it holds a keyword, or consists of digits, the usual unknowns and
operators. Any text may be tried; one that looks different is only warned about.
-/

namespace SymbolicSolver.Query

/-- The words that announce a calculation. -/
def keywords : List String :=
  ["integrate", "integral", "differentiate", "derivative", "solve", "equation", "root", "roots",
    "limit", "ln", "log", "evaluate", "simplify", "summation", "ode", "differential equation"]

/-- The characters of plain formulas. -/
def formulaChars : List Char := "0123456789xXyYzZtT+-*/^().= ".toList

/-- Whether a text looks like mathematics. -/
def looksMathematical (s : String) : Bool :=
  let cs := Text.trim s.toList
  cs ≠ [] &&
    ((keywords.any fun w => Text.containsWord w (Text.lower cs)) ||
      cs.all fun c => formulaChars.contains c)

end SymbolicSolver.Query
