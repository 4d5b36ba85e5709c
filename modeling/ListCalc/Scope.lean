/-
Names in scope.

All names live in one table, so a name has one meaning at a time.  A stack of
frames records which frame introduced which names: closing a frame removes
exactly those.

* `put` binds a new name in the innermost frame and refuses a bound one;
* `set` gives a bound name a new meaning and leaves its frame as it is;
* `pop` closes the innermost frame and gives back the names it introduced.

Each of them has a fault for the state in which it makes no sense; a fault
changes nothing.
-/

namespace ListCalc

/-- A use of the scope that no program can cause. -/
inductive Fault where
  | popWithoutFrame
  | putWithoutFrame
  | setUnbound (name : String)
  | unknownOperator (op : String)
  deriving DecidableEq

/-- What opened a frame. -/
inductive FrameKind where
  | program
  | block
  | loop
  | other (code : Int)
  deriving DecidableEq

namespace FrameKind

/-- The number of a kind of frame. -/
def code : FrameKind → Int
  | program => 0
  | block => 1
  | loop => 2
  | other n => n

/-- The kind of frame with a given number. -/
def ofCode : Int → FrameKind
  | 0 => program
  | 1 => block
  | 2 => loop
  | n => other n

end FrameKind

/-- An open frame with the names it introduced, in order. -/
structure Frame where
  kind : FrameKind
  names : List String
  deriving DecidableEq

/-- The names in scope with their meanings, and the open frames, innermost first. -/
structure Scope (α : Type) where
  entries : List (String × α)
  frames : List Frame

namespace Scope

variable {α : Type}

/-- No names and no frames. -/
def empty : Scope α := ⟨[], []⟩

instance : EmptyCollection (Scope α) := ⟨empty⟩

/-- The meaning of a name. -/
def get? (s : Scope α) (name : String) : Option α :=
  s.entries.lookup name

/-- The name has a meaning. -/
def has (s : Scope α) (name : String) : Bool :=
  (s.get? name).isSome

/-- How many frames are open. -/
def depth (s : Scope α) : Nat := s.frames.length

/-- Opens a frame. -/
def push (kind : FrameKind) (s : Scope α) : Scope α :=
  { s with frames := ⟨kind, []⟩ :: s.frames }

/-- Closes the innermost frame; gives its names and the scope without them. -/
def pop (s : Scope α) : Except Fault (List String × Scope α) :=
  match s.frames with
  | [] => .error .popWithoutFrame
  | top :: rest =>
    .ok (top.names, ⟨s.entries.filter (fun e => !top.names.contains e.1), rest⟩)

/-- Binds a name in the innermost frame; a name that is bound stays as it is, and the answer says
so. -/
def put (name : String) (a : α) (s : Scope α) : Except Fault (Bool × Scope α) :=
  if s.has name then .ok (false, s)
  else match s.frames with
    | [] => .error .putWithoutFrame
    | top :: rest =>
      .ok (true, ⟨(name, a) :: s.entries, { top with names := top.names ++ [name] } :: rest⟩)

/-- Replaces the meaning of a bound name. -/
def set (name : String) (a : α) (s : Scope α) : Except Fault (Scope α) :=
  if s.has name then
    .ok { s with entries := s.entries.map fun e => if e.1 == name then (name, a) else e }
  else .error (.setUnbound name)

/-- The bound names, in order of their code points. -/
def names (s : Scope α) : List String :=
  (s.entries.map Prod.fst).mergeSort

end Scope

end ListCalc
