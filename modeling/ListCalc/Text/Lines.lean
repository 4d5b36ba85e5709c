/-
Lines of a text.

A line ends with a line feed, which may have a carriage return in front of it.
Text behind the last line feed is a line too.
-/

namespace ListCalc.Text

/-- The pieces of a text, each up to and including its line feed. -/
def pieces : List Char → List (List Char)
  | [] => []
  | c :: cs =>
    if c = '\n' then [c] :: pieces cs
    else match pieces cs with
      | [] => [[c]]
      | p :: ps => (c :: p) :: ps

/-- A piece without its line end. -/
def withoutEnd (piece : List Char) : List Char :=
  match piece.reverse with
  | '\n' :: '\r' :: cs => cs.reverse
  | '\n' :: cs => cs.reverse
  | _ => piece

/-- The lines of a text without their ends. -/
def lines (s : String) : List String :=
  (pieces s.toList).map fun p => String.ofList (withoutEnd p)

/-- The lines of a text with their ends. -/
def linesWithEnds (s : String) : List String :=
  (pieces s.toList).map String.ofList

end ListCalc.Text
