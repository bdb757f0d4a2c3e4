import Mathlib.Data.List.Induction
import SymbolicSolver.Window

/-!
# Sessions over time

A session is what a run of operations made of a new one. Its history is told by the run: it holds the exchanges since the
last reset, the latest first, as far as they are kept, and each answer in it is the answer to its query. What is on show
is nothing or the reply to the latest query of the history. Whatever is done to a window is done to its session by such
operations, so all this holds of every window too.
-/

namespace SymbolicSolver

namespace Session

/-- What can be done to a session. A query is asked together with the reply to it. -/
inductive Operation where
  | ask (query : String)
  | warn (text : String)
  | reuse (index : Nat)
  | clearInput
  | clearResults
  | reset
  | setInput (text : String)
  | setFocus (wanted : Bool)
  deriving DecidableEq

/-- The query that is asked. -/
def Operation.query? : Operation → Option String
  | ask query => some query
  | _ => none

/-- Does an operation. -/
def perform (s : Session) : Operation → Session
  | .ask query => s.ask query
  | .warn text => s.warn text
  | .reuse index => s.reuse index
  | .clearInput => s.clearInput
  | .clearResults => s.clearResults
  | .reset => s.reset
  | .setInput text => s.setInput text
  | .setFocus wanted => { s with wantsFocus := wanted }

/-- Does one operation after the other. -/
def run (s : Session) (ops : List Operation) : Session := ops.foldl perform s

theorem run_append (s : Session) (ops later : List Operation) : s.run (ops ++ later) = (s.run ops).run later :=
  List.foldl_append

/-! ## What is remembered -/

/-- A query with the answer to it. -/
def exchangeOf (settings : Settings) (query : String) : Exchange := ⟨query, (Reply.ofText settings query).answer⟩

/-- The operations since the last reset, the latest first. -/
def sinceReset (ops : List Operation) : List Operation := ops.reverse.takeWhile (· ≠ .reset)

/-- The exchanges since the last reset, the latest first. -/
def exchanges (settings : Settings) (ops : List Operation) : List Exchange :=
  ((sinceReset ops).filterMap Operation.query?).map (exchangeOf settings)

theorem exchanges_concat_reset (settings : Settings) (ops : List Operation) :
    exchanges settings (ops ++ [.reset]) = [] := by
  simp [exchanges, sinceReset]

theorem exchanges_concat_ask (settings : Settings) (ops : List Operation) (query : String) :
    exchanges settings (ops ++ [.ask query]) = exchangeOf settings query :: exchanges settings ops := by
  simp [exchanges, sinceReset, Operation.query?]

theorem exchanges_concat {op : Operation} (hreset : op ≠ .reset) (hquery : op.query? = none) (settings : Settings)
    (ops : List Operation) : exchanges settings (ops ++ [op]) = exchanges settings ops := by
  simp [exchanges, sinceReset, hreset, hquery]

/-! ## One operation -/

/-- The session is what the operations make of a new one, as far as history and reply are concerned. -/
structure Follows (settings : Settings) (ops : List Operation) (s : Session) : Prop where
  settings_eq : s.settings = settings
  history_eq : s.history = (exchanges settings ops).take maxHistory
  reply_eq : s.reply? = none ∨
    ∃ x rest, s.history = x :: rest ∧ s.reply? = some (Reply.ofText settings x.query)

variable {settings : Settings} {ops : List Operation} {s : Session}

theorem follows_start (settings : Settings) : Follows settings [] (start settings) := ⟨rfl, rfl, .inl rfl⟩

/-- An operation that neither asks nor resets keeps the history, and the reply unless it takes it away. -/
theorem Follows.keep (h : Follows settings ops s) {op : Operation} (hreset : op ≠ .reset) (hquery : op.query? = none)
    {t : Session} (hsettings : t.settings = s.settings) (hhistory : t.history = s.history)
    (hreply : t.reply? = none ∨ t.reply? = s.reply?) : Follows settings (ops ++ [op]) t := by
  refine ⟨hsettings.trans h.settings_eq, ?_, ?_⟩
  · rw [hhistory, h.history_eq, exchanges_concat hreset hquery]
  · rcases hreply with hnone | hsame
    · exact .inl hnone
    · rw [hsame, hhistory]
      exact h.reply_eq

theorem Follows.ask (h : Follows settings ops s) (query : String) :
    Follows settings (ops ++ [.ask query]) (s.ask query) := by
  have hhistory : (s.ask query).history = exchangeOf settings query :: s.history.take (maxHistory - 1) := by
    rw [Session.ask, h.settings_eq]
    rfl
  refine ⟨h.settings_eq, ?_, .inr ⟨exchangeOf settings query, _, hhistory, ?_⟩⟩
  · rw [hhistory, h.history_eq, exchanges_concat_ask, List.take_take]
    rfl
  · rw [Session.ask, h.settings_eq]
    rfl

theorem Follows.reset (h : Follows settings ops s) : Follows settings (ops ++ [.reset]) s.reset := by
  refine ⟨h.settings_eq, ?_, .inl rfl⟩
  rw [exchanges_concat_reset]
  rfl

theorem reuse_eq (s : Session) (index : Nat) : s.reuse index =
    if h : index < s.history.length then { s with input := s.history[index].query, wantsFocus := true } else s := by
  unfold reuse
  split
  · rename_i x hx
    obtain ⟨hlt, rfl⟩ := List.getElem?_eq_some_iff.1 hx
    rw [dif_pos hlt]
  · rename_i hx
    rw [dif_neg (Nat.not_lt.2 (List.getElem?_eq_none_iff.1 hx))]

/-- Taking an earlier query up again changes the input line and the focus only. -/
theorem reuse_frame (s : Session) (index : Nat) :
    s.reuse index = { s with input := (s.reuse index).input, wantsFocus := (s.reuse index).wantsFocus } := by
  rw [reuse_eq]
  split <;> rfl

theorem Follows.perform (h : Follows settings ops s) (op : Operation) :
    Follows settings (ops ++ [op]) (s.perform op) := by
  cases op with
  | ask query => exact h.ask query
  | reset => exact h.reset
  | clearResults => exact h.keep (by decide) rfl rfl rfl (.inl rfl)
  | reuse index =>
    rw [Session.perform, reuse_frame]
    exact h.keep (by simp) rfl rfl rfl (.inr rfl)
  | _ => exact h.keep (by simp) rfl rfl rfl (.inr rfl)

/-! ## Runs -/

theorem follows_run (settings : Settings) (ops : List Operation) : Follows settings ops ((start settings).run ops) := by
  induction ops using List.reverseRecOn with
  | nil => exact follows_start settings
  | append_singleton ops op ih =>
    rw [run_append]
    exact ih.perform op

/-- Every answer in the history is the answer to its query. -/
theorem Follows.answered (h : Follows settings ops s) :
    ∀ x ∈ s.history, x.answer = (Reply.ofText settings x.query).answer := by
  intro x hx
  rw [h.history_eq] at hx
  obtain ⟨query, -, rfl⟩ := List.mem_map.1 (List.mem_of_mem_take hx)
  rfl

/-- Nothing is on show, or the reply to the query at the head of the history. -/
theorem Follows.shown (h : Follows settings ops s) :
    (s.reply? = none ∧ s.answer = "" ∧ s.branchName = "" ∧ s.normalized = "") ∨
      ∃ x rest, s.history = x :: rest ∧ s.reply? = some (Reply.ofText settings x.query) ∧ s.answer = x.answer := by
  rcases h.reply_eq with hnone | ⟨x, rest, hx, hreply⟩
  · exact .inl ⟨hnone, by rw [answer, hnone]; rfl, by rw [branchName, hnone]; rfl, by rw [normalized, hnone]; rfl⟩
  · refine .inr ⟨x, rest, hx, hreply, ?_⟩
    rw [answer, hreply, h.answered x (hx ▸ List.mem_cons_self)]
    rfl

/-- After any run from a new session, the history holds the latest fifty of the exchanges since the last reset, the latest
first, each with the answer to its query; and nothing is on show, or the reply to the query at the head of the history.
Taking an earlier query up again changes the input line and the focus only, and nothing where there is none. -/
theorem run_history (settings : Settings) (ops : List Operation) :
    let s := (start settings).run ops
    s.history = (exchanges settings ops).take 50 ∧
    (∀ x ∈ s.history, x.answer = (Reply.ofText settings x.query).answer) ∧
    ((s.reply? = none ∧ s.answer = "" ∧ s.branchName = "" ∧ s.normalized = "") ∨
      ∃ x rest, s.history = x :: rest ∧ s.reply? = some (Reply.ofText settings x.query) ∧ s.answer = x.answer) ∧
    ∀ index, s.reuse index =
      if h : index < s.history.length then { s with input := s.history[index].query, wantsFocus := true } else s :=
  have h := follows_run settings ops
  ⟨h.history_eq, h.answered, h.shown, reuse_eq _⟩

/-! ## Windows -/

/-- The operations with which the input line is replied to. -/
def solveOperations (s : Session) : List Operation :=
  let query := Text.trimString s.input
  if query = "" then [.warn emptyWarning, .setFocus true]
  else [.warn (if Query.looksMathematical query then "" else doubtWarning), .ask query]

theorem run_solveOperations (s : Session) : s.run s.solveOperations = s.solveInput := by
  unfold solveOperations solveInput
  dsimp only
  split <;> rfl

end Session

namespace Window

/-- What a user does to a window. -/
inductive Event where
  | type (text : String)
  | enter
  | escape
  | click (label : String)
  | clickExchange (index : Nat)

/-- The reaction of a window to an event. -/
def respond (w : Window) : Event → Window
  | .type text => w.type text
  | .enter => w.enter
  | .escape => w.escape
  | .click label => w.click label
  | .clickExchange index => w.clickExchange index

/-- A click does operations to the session. -/
theorem exists_run_react (w : Window) (a : Action) : ∃ ops, (w.react a).session = w.session.run ops := by
  cases a with
  | nothing | toggleSteps | toggleHistory => exact ⟨[], rfl⟩
  | clearInput => exact ⟨[.clearInput], rfl⟩
  | clearResults => exact ⟨[.clearResults], rfl⟩
  | reset => exact ⟨[.reset], rfl⟩
  | solve =>
    refine ⟨w.session.solveOperations, ?_⟩
    rw [Session.run_solveOperations, react, act]
  | insert text => exact ⟨[.setInput (w.session.input ++ text)], rfl⟩
  | reuse index => exact ⟨[.reuse index], rfl⟩

theorem exists_run_respond (w : Window) (e : Event) : ∃ ops, (w.respond e).session = w.session.run ops := by
  cases e with
  | type text => exact ⟨[.setInput text], rfl⟩
  | enter =>
    rw [respond, enter]
    split
    · exact exists_run_react w .solve
    · exact ⟨[], rfl⟩
  | escape => exact exists_run_react w .clearInput
  | click label =>
    rw [respond, click]
    split
    · exact exists_run_react w _
    · exact ⟨[], rfl⟩
  | clickExchange index =>
    rw [respond, clickExchange]
    split
    · exact exists_run_react w _
    · exact ⟨[], rfl⟩

/-- Whatever is done to a window, its session is what a run of operations made of a new one. -/
theorem exists_follows (settings : Settings) (events : List Event) :
    ∃ ops, Session.Follows settings ops (events.foldl respond (start settings)).session := by
  suffices h : ∃ ops, (events.foldl respond (start settings)).session = (Session.start settings).run ops by
    obtain ⟨ops, hops⟩ := h
    exact ⟨ops, hops ▸ Session.follows_run settings ops⟩
  induction events using List.reverseRecOn with
  | nil => exact ⟨[], rfl⟩
  | append_singleton events e ih =>
    obtain ⟨ops, hops⟩ := ih
    obtain ⟨later, hlater⟩ := exists_run_respond (events.foldl respond (start settings)) e
    refine ⟨ops ++ later, ?_⟩
    rw [List.foldl_append, Session.run_append, ← hops, ← hlater]
    rfl

end Window

end SymbolicSolver
