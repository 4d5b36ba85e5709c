/-
Lines that can be recalled at the prompt.

The newest thousand lines are kept, and a line that repeats the one before it is
not added.
-/
import ListCalc.History
import ListCalc.Text.ReadAhead

namespace ListCalc

/-- The lines, oldest first. -/
structure Recall where
  entries : List String
  deriving DecidableEq

namespace Recall

/-- How many lines are kept. -/
def capacity : Nat := 1000

/-- A line of a file, given with its end, is too long to be taken. -/
def isTooLong (line : List Char) : Bool :=
  !Text.fitsBuffer (String.ofList line).toUTF8.toList

/-- The newest of some lines. -/
def bounded (entries : List String) : Recall :=
  ⟨entries.drop (entries.length - capacity)⟩

/-- Adds a line, unless it repeats the last one. -/
def add (r : Recall) (line : String) : Recall :=
  if r.entries.getLast? = some line then r else bounded (r.entries ++ [line])

/-- All lines as a text. -/
def text (r : Recall) : String :=
  String.join (r.entries.map (· ++ "\n"))

/-- Adds the lines of a file up to the first one that is too long; `number` lines have been added
before. -/
def addPieces (r : Recall) (number : Nat) : List (List Char) → Option String × Recall
  | [] => (none, r)
  | p :: ps =>
    if isTooLong p then
      (some ("line " ++ toString (number + 1) ++ " is too long"), r)
    else
      (bounded (r.entries ++ [String.ofList (Text.withoutEnd p)])).addPieces (number + 1) ps

/-- Adds the lines of a file. -/
def absorb : Absorb Recall
  | .error e, r => (some e.message, r)
  | .ok content, r => r.addPieces 0 (Text.pieces content.toList)

end Recall

end ListCalc
