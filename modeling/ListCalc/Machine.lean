/-
The state of a run, and actions on it.

A run has names in scope and a writer for the lines it prints.  An action
changes this state and ends with an outcome; what it changed stays changed also
when it fails, so that a frame opened around it can be closed in any case.
-/
import ListCalc.Binding
import ListCalc.Outcome

namespace ListCalc

/-- Printed lines, newest first.  If `room` is a number, only so many more lines can be
written. -/
structure Writer where
  written : List String
  room : Option Nat

namespace Writer

/-- A writer with nothing written. -/
def fresh (room : Option Nat) : Writer := ⟨[], room⟩

/-- Writes a line, unless there is no room for it. -/
def writeLine (w : Writer) (line : String) : Option Writer :=
  match w.room with
  | none => some { w with written := line :: w.written }
  | some 0 => none
  | some (n + 1) => some ⟨line :: w.written, some n⟩

/-- All that was written, every line with its end. -/
def text (w : Writer) : String :=
  String.join (w.written.reverse.map (· ++ "\n"))

end Writer

/-- The state of a run. -/
structure Machine (τ : Type) where
  names : Names τ
  out : Writer

/-- Changes the state of a run and ends with an outcome. -/
def Action (τ α : Type) : Type :=
  Machine τ → Outcome τ α × Machine τ

namespace Action

variable {τ α β : Type}

/-- Changes nothing. -/
protected def pure (a : α) : Action τ α := fun m => (.done a, m)

/-- Acts with `x` and, if that is done, with the action its value selects. -/
protected def bind (x : Action τ α) (f : α → Action τ β) : Action τ β := fun m =>
  match x m with
  | (.done a, m') => f a m'
  | (.failed e, m') => (.failed e, m')
  | (.unfinished, m') => (.unfinished, m')

instance : Monad (Action τ) where
  pure := Action.pure
  bind := Action.bind

/-- Computes from the names in scope and changes nothing. -/
def query (f : Names τ → Outcome τ α) : Action τ α := fun m => (f m.names, m)

/-- Ends with a given outcome. -/
def ofOutcome (o : Outcome τ α) : Action τ α := fun m => (o, m)

/-- Fails with a runtime error. -/
def raise (kind : RuntimeError.Kind) (name : String) (mark : τ) (detail : String) : Action τ α :=
  ofOutcome (.raise kind name mark detail)

/-- Binds a new name; a taken one is a redeclaration. -/
def bindNew (id : Ident τ) (b : Binding τ) : Action τ Unit := fun m =>
  if m.names.isTaken id.name then (.raise .redeclaration id.name id.mark "", m)
  else match m.names.put id.name b with
    | .ok (_, names) => (.done (), { m with names })
    | .error f => (.failed (.fault f), m)

/-- Fails if no declaration may take the name. -/
def refuseTaken (id : Ident τ) : Action τ Unit := fun m =>
  if m.names.isTaken id.name then (.raise .redeclaration id.name id.mark "", m) else (.done (), m)

/-- Gives a bound name a new value. -/
def assign (id : Ident τ) (v : Value) : Action τ Unit := fun m =>
  match m.names.set id.name (.value v) with
  | .ok names => (.done (), { m with names })
  | .error f => (.failed (.fault f), m)

/-- Prints a line for the statement with the given mark. -/
def printLine (mark : τ) (line : String) : Action τ Unit := fun m =>
  match m.out.writeLine line with
  | some out => (.done (), { m with out })
  | none => (.failed (.write mark "broken pipe"), m)

/-- Acts inside a frame of its own, which is closed however the action ends. -/
def inFrame (kind : FrameKind) (x : Action τ Unit) : Action τ Unit := fun m =>
  let (o, m') := x { m with names := m.names.push kind }
  match m'.names.pop with
  | .ok (_, names) => (o, { m' with names })
  | .error f => (.failed (.fault f), m')

/-- Acts on each of some elements, in order, up to the first failure. -/
def forEach (act : α → Action τ Unit) : List α → Action τ Unit
  | [], m => (.done (), m)
  | a :: rest, m =>
    match act a m with
    | (.done _, m') => forEach act rest m'
    | stopped => stopped

/-- Acts on `i`, `i + step`, … as long as they do not exceed `stop`, at most `bound` times and up
to the first failure. -/
def countUp (act : Float → Action τ Unit) (stop step : Float) : Nat → Float → Action τ Unit
  | 0, i, m => if i ≤ stop then (.unfinished, m) else (.done (), m)
  | bound + 1, i, m =>
    if i ≤ stop then
      match act i m with
      | (.done _, m') => countUp act stop step bound (i + step) m'
      | stopped => stopped
    else (.done (), m)

end Action

end ListCalc
