import SymbolicSolver.Query.Recognise
import SymbolicSolver.Reply

/-!
# Sessions

What one sitting with the solver holds: the input line, the last reply, a warning, and the latest exchanges.
-/

namespace SymbolicSolver

/-- A query and its answer. -/
structure Exchange where
  query : String
  answer : String
  deriving DecidableEq

/-- The state of a sitting. `wantsFocus` asks that the input line receive the keyboard. -/
structure Session where
  settings : Settings
  input : String
  reply? : Option Reply
  warning : String
  history : List Exchange
  wantsFocus : Bool

namespace Session

/-- The number of exchanges that are kept. -/
def maxHistory : Nat := 50

/-- A new sitting. -/
def start (settings : Settings) : Session := ⟨settings, "", none, "", [], true⟩

/-- The answer on show; empty when there is none. -/
def answer (s : Session) : String := (s.reply?.map Reply.answer).getD ""

/-- The name of the branch on show; empty when there is none. -/
def branchName (s : Session) : String := (s.reply?.map fun r => r.branch.name).getD ""

/-- The formula on show; empty when there is none. -/
def normalized (s : Session) : String := (s.reply?.map Reply.normalized).getD ""

/-! ## Operations -/

/-- Puts a text into the input line. -/
def setInput (s : Session) (text : String) : Session := { s with input := text }

/-- Empties the input line. -/
def clearInput (s : Session) : Session := { s with input := "", wantsFocus := true }

/-- Takes the reply and the warning away; the history stays. -/
def clearResults (s : Session) : Session :=
  { s with reply? := none, warning := "", wantsFocus := true }

/-- Empties everything. -/
def reset (s : Session) : Session :=
  { s.clearResults with input := "", history := [] }

/-- Shows a warning; an empty one is none. -/
def warn (s : Session) (text : String) : Session := { s with warning := text }

/-- Shows the reply to a query and puts the exchange before the others, of which the latest are kept. -/
def record (s : Session) (query : String) (reply : Reply) : Session :=
  { s with
    reply? := some reply
    history := (⟨query, reply.answer⟩ :: s.history).take maxHistory
    wantsFocus := true }

/-- Puts the query of an earlier exchange into the input line; nothing happens where there is none. -/
def reuse (s : Session) (index : Nat) : Session :=
  match s.history[index]? with
  | some x => { s with input := x.query, wantsFocus := true }
  | none => s

/-- Replies to a query and records the exchange. -/
def ask (s : Session) (query : String) : Session := s.record query (Reply.ofText s.settings query)

/-- Replies to the input line as it stands. -/
def askInput (s : Session) : Session := s.ask s.input

/-- The warning for an empty query. -/
def emptyWarning : String := "Entrée vide"

/-- The warning for a query that does not look like mathematics. -/
def doubtWarning : String := "Cette requête ne ressemble pas à un calcul ; tentative quand même."

/-- Replies to the input line without the blanks around it, with a warning where it is empty or does not look
like mathematics. An empty one gets no reply. -/
def solveInput (s : Session) : Session :=
  let query := Text.trimString s.input
  if query = "" then { s.warn emptyWarning with wantsFocus := true }
  else (s.warn (if Query.looksMathematical query then "" else doubtWarning)).ask query

end Session

end SymbolicSolver
