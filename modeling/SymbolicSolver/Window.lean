import SymbolicSolver.Session

/-!
# The window

What the window shows of a session and how it reacts. The window is a list of elements, each with its text; a
click falls on the first element with the given text. Two sections fold: the steps of the last reply, and the
history, which remembers for each length whether it was unfolded.
-/

namespace SymbolicSolver

/-- What an element does when it is clicked. -/
inductive Action where
  | nothing
  | clearInput
  | clearResults
  | reset
  | solve
  | insert (text : String)
  | toggleSteps
  | toggleHistory
  | reuse (index : Nat)
  deriving DecidableEq

/-- An element of the window. -/
structure Element where
  text : String
  action : Action

/-- The window: its session, whether the input line has the keyboard, whether the steps are unfolded, and the
lengths at which the history is unfolded. -/
structure Window where
  session : Session
  focused : Bool
  stepsUnfolded : Bool
  unfoldedHistories : List Nat

namespace Window

/-- A new window. -/
def start (settings : Settings) : Window := ⟨Session.start settings, true, true, []⟩

/-! ## Elements -/

/-- A text that does nothing. -/
def plain (text : String) : Element := ⟨text, .nothing⟩

/-- A text that does nothing, if it is not empty. -/
def shown (text : String) : List Element := if text = "" then [] else [plain text]

/-- The text in an empty input line. -/
def hint : String := "Ex: solve x^2 - 4 = 0, integrate sin(x), sum k from 1 to 5 of k^2"

/-- The texts that buttons insert. -/
def insertions : List String :=
  ["solve ", "derivative of ", "integrate ", "limit ", "sum k from 1 to ", "sqrt(", "sin(", "cos(",
    "exp(", "log(", "(", ")", "^", "=", "pi", "x", "y", " as x -> "]

/-- The label of an insertion button: the text without blanks around it and, after a name, without the
parenthesis. -/
def insertionLabel (text : String) : String :=
  let t := Text.trimString text
  if t.length > 1 && t.endsWith "(" then (t.dropEnd 1).toString else t

/-- The buttons. -/
def buttons : List Element :=
  [⟨"C", .clearInput⟩, ⟨"CLR", .clearResults⟩, ⟨"AC", .reset⟩, ⟨"Résoudre", .solve⟩] ++
    insertions.map fun t => ⟨insertionLabel t, .insert t⟩

/-- The length of the history. -/
def historyLength (w : Window) : Nat := w.session.history.length

def historyUnfolded (w : Window) : Bool := w.unfoldedHistories.contains w.historyLength

/-- The part above the section titles. -/
def entryElements (w : Window) : List Element :=
  [plain "Solveur Q-pur", plain "Requête :",
    plain (if w.session.input = "" then hint else w.session.input)] ++
    buttons ++ shown w.session.warning ++ plain "Réponse :" :: shown w.session.answer

/-- The section with the steps of the last reply. -/
def stepElements (w : Window) : List Element :=
  ⟨"Démarche", .toggleSteps⟩ ::
    if w.stepsUnfolded then
      plain "Branche :" :: shown w.session.branchName ++
        plain "Normalisé :" :: shown w.session.normalized
    else []

/-- The elements of the exchanges, the first of which has the given index. -/
def exchangeElements : Nat → List Exchange → List Element
  | _, [] => []
  | i, x :: xs =>
    (if x.query = "" then [] else [⟨x.query, .reuse i⟩]) ++ shown x.answer ++
      exchangeElements (i + 1) xs

/-- The title of the history. -/
def historyTitle (w : Window) : Element :=
  ⟨"Historique (" ++ toString w.historyLength ++ ")", .toggleHistory⟩

/-- What stands below the title of the history. -/
def historyElements (w : Window) : List Element :=
  if w.historyUnfolded then exchangeElements 0 w.session.history else []

/-- All elements in the order of display. -/
def elements (w : Window) : List Element :=
  w.entryElements ++ w.stepElements ++ w.historyTitle :: w.historyElements

/-- All texts in the order of display. -/
def texts (w : Window) : List String := w.elements.map Element.text

/-! ## Reactions -/

/-- Changes the session and gives the input line the keyboard. -/
def act (w : Window) (change : Session → Session) : Window :=
  { w with session := change w.session, focused := true }

/-- Folds what is unfolded and unfolds what is folded at the present length of the history. -/
def toggleHistory (w : Window) : Window :=
  { w with
    focused := false
    unfoldedHistories :=
      if w.historyUnfolded then w.unfoldedHistories.filter (· ≠ w.historyLength)
      else w.historyLength :: w.unfoldedHistories }

/-- The reaction to a click on an element. -/
def react (w : Window) : Action → Window
  | .nothing => { w with focused := false }
  | .clearInput => w.act Session.clearInput
  | .clearResults => w.act Session.clearResults
  | .reset => w.act Session.reset
  | .solve => w.act Session.solveInput
  | .insert text => w.act fun s => s.setInput (s.input ++ text)
  | .toggleSteps => { w with stepsUnfolded := !w.stepsUnfolded, focused := false }
  | .toggleHistory => w.toggleHistory
  | .reuse i => w.act fun s => s.reuse i

/-- Puts a text into the input line. -/
def type (w : Window) (text : String) : Window := { w with session := w.session.setInput text }

/-- The enter key solves if the input line has the keyboard. -/
def enter (w : Window) : Window := if w.focused then w.react .solve else w

/-- The escape key empties the input line. -/
def escape (w : Window) : Window := w.react .clearInput

/-- A click on the first element with the given text, below the title and the input line. -/
def click (w : Window) (label : String) : Window :=
  match (w.elements.drop 3).find? fun x => x.text = label with
  | some x => w.react x.action
  | none => w

/-- A click on the request of an exchange: every exchange takes two elements below the title. -/
def clickExchange (w : Window) (index : Nat) : Window :=
  match w.historyElements[2 * index]? with
  | some x => w.react x.action
  | none => w

end Window

end SymbolicSolver
