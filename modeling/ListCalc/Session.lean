/-
Sessions.

A session runs programs one after the other.  `interpret` runs a program in a
frame of its own and forgets its names; `execute` runs it in a frame that stays
open for the programs that follow, until `close`.
-/
import ListCalc.Stmt.Parser
import ListCalc.Stmt.Run

namespace ListCalc

/-- A run that goes on over several programs, and whether its lasting frame is open. -/
structure Session (τ : Type) where
  machine : Machine τ
  isOpen : Bool

namespace Session

variable {τ : Type}

/-- A session with no names that prints to `out`. -/
def start (out : Writer) : Session τ := ⟨⟨.empty, out⟩, false⟩

/-- Runs a program in a frame of its own. -/
def interpret (bound : Nat) (p : Program τ) (s : Session τ) : Outcome τ Unit × Session τ :=
  let (o, m) := Action.inFrame .program (Stmt.runAll bound p) s.machine
  (o, { s with machine := m })

/-- The session with its lasting frame open. -/
def opened (s : Session τ) : Session τ :=
  if s.isOpen then s
  else ⟨{ s.machine with names := s.machine.names.push .program }, true⟩

/-- Runs a program in the lasting frame. -/
def execute (bound : Nat) (p : Program τ) (s : Session τ) : Outcome τ Unit × Session τ :=
  let s' := s.opened
  let (o, m) := Stmt.runAll bound p s'.machine
  (o, { s' with machine := m })

/-- The value of an expression in the session. -/
def evaluate (bound : Nat) (e : Expr τ) (s : Session τ) : Outcome τ Value :=
  e.eval s.machine.names bound

/-- Closes the lasting frame, if it is open. -/
def close (s : Session τ) : Outcome τ Unit × Session τ :=
  if s.isOpen then
    match s.machine.names.pop with
    | .ok (_, names) => (.done (), ⟨{ s.machine with names }, false⟩)
    | .error f => (.failed (.fault f), s)
  else (.done (), s)

/-- The names that are bound, in order. -/
def names (s : Session τ) : List String := s.machine.names.names

/-- The name is bound. -/
def isDefined (s : Session τ) (name : String) : Bool := s.machine.names.has name

/-- The session with another writer. -/
def withWriter (s : Session τ) (out : Writer) : Session τ :=
  { s with machine := { s.machine with out } }

end Session

/-- Why a source could not be run to its end. -/
inductive RunError where
  | source (e : SourceError)
  | failure (e : Failure Token)
  /-- the run needs more steps than its bound allows -/
  | unfinished

/-- The error in words. -/
def RunError.message : RunError → String
  | source e => e.message
  | failure e => e.message
  | unfinished => "step limit reached"

/-- The error of an outcome. -/
def RunError.ofOutcome {α : Type} : Outcome Token α → Option RunError
  | .done _ => none
  | .failed e => some (.failure e)
  | .unfinished => some .unfinished

namespace Session

/-- The label of sources that are typed in. -/
def entryLabel : String := "<repl>"

/-- Parses an entry and runs it in the lasting frame. -/
def runEntry (bound : Nat) (source : String) (s : Session Token) :
    Option RunError × Session Token :=
  match parse entryLabel source with
  | .error e => (some (.source e), s)
  | .ok p =>
    let (o, s') := s.execute bound p
    (RunError.ofOutcome o, s')

end Session

/-- Parses and runs a whole program; gives what it printed and why it stopped early. -/
def runSource (bound : Nat) (file source : String) (out : Writer) : Option RunError × Writer :=
  match parse file source with
  | .error e => (some (.source e), out)
  | .ok p =>
    let (o, s) := (Session.start out).interpret bound p
    (RunError.ofOutcome o, s.machine.out)

end ListCalc
