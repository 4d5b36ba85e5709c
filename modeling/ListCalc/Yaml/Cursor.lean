/-
Walking over the text of a YAML stream.

A cursor holds the characters ahead and the mark of the first of them.  Lines
end with a line feed, a carriage return or both, or with one of the three
Unicode line ends.  Errors know the line that a message shows, or none.
-/

namespace ListCalc.Yaml

/-- A position: how many characters come before it, and its line and column from zero. -/
structure Mark where
  index : Nat
  line : Nat
  column : Nat
  deriving DecidableEq, Inhabited

/-- Why a stream cannot be read.  A message shows the line unless it is zero.  `reached` is how
many characters come before the place where it was found. -/
structure Error where
  line : Nat
  problem : String
  reached : Nat
  deriving DecidableEq

namespace Error

/-- The error in words. -/
def message (e : Error) : String :=
  (if e.line = 0 then "" else "line " ++ toString e.line ++ ": ") ++ e.problem

/-- An error in the parts of a line, with the mark of what it is about and the mark where it was
found.  The first line never shows. -/
def lexical (about found : Mark) (problem : String) : Error :=
  let line := if about.line ≠ 0 then about.line else found.line
  ⟨if line = 0 then 0 else line + 1, problem, found.index⟩

/-- An error in how the parts fit together.  The line shown is the one before. -/
def structural (about found : Mark) (problem : String) : Error :=
  ⟨if about.line ≠ 0 then about.line else found.line, problem, found.index⟩

/-- An error that is about no line. -/
def general (problem : String) : Error := ⟨0, problem, 0⟩

/-- The error for a portion with a character that is not allowed. -/
def forbidden : Error := general "control characters are not allowed"

/-- Of two errors, one behind the other, the second is told.  A forbidden character has no line of
its own and takes the one in front of the line of the first. -/
def followedBy (first second : Error) : Error :=
  if second = forbidden then { second with line := first.line - 1 } else second

end Error

/-! ### Characters -/

/-- A space or a tab. -/
def isBlank (c : Char) : Bool := c == ' ' || c == '\t'

/-- The start of a line end. -/
def isBreak (c : Char) : Bool :=
  c == '\r' || c == '\n' || c == '\u0085' || c == '\u2028' || c == '\u2029'

/-- A character of names: a letter, a digit, an underscore or a hyphen. -/
def isNameChar (c : Char) : Bool :=
  c.isAlphanum || c == '_' || c == '-'

/-! ### The cursor -/

/-- The characters ahead and where they start.  Behind the last character that is no blank there
have been `breaks` line ends.  No loop takes more than `size` steps, which is more than the whole
text has characters. -/
structure Cursor where
  rest : List Char
  mark : Mark
  breaks : Nat
  size : Nat

namespace Cursor

/-- A cursor at the start of a text. -/
def ofText (text : List Char) : Cursor := ⟨text, ⟨0, 0, 0⟩, 0, text.length + 1⟩

/-- The character `n` places ahead. -/
def peek (c : Cursor) (n : Nat) : Option Char := c.rest[n]?

/-- The character `n` places ahead is `x`. -/
def sees (c : Cursor) (n : Nat) (x : Char) : Bool := c.peek n == some x

/-- Nothing is ahead. -/
def atEnd (c : Cursor) : Bool := c.rest.isEmpty

/-- A space or a tab is ahead. -/
def atBlank (c : Cursor) : Bool := (c.peek 0).any isBlank

/-- A line end is ahead. -/
def atBreak (c : Cursor) : Bool := (c.peek 0).any isBreak

/-- A line end or nothing stands `n` places ahead. -/
def breakOrEnd (c : Cursor) (n : Nat) : Bool := (c.peek n).all isBreak

/-- A blank, a line end or nothing stands `n` places ahead. -/
def gapOrEnd (c : Cursor) (n : Nat) : Bool := (c.peek n).all fun x => isBlank x || isBreak x

/-- Moves over one character of a line. -/
def skip (c : Cursor) : Cursor :=
  { c with
    rest := c.rest.tail
    mark := ⟨c.mark.index + 1, c.mark.line, c.mark.column + 1⟩
    breaks := if c.atBlank then c.breaks else 0 }

/-- Moves over some characters of a line. -/
def skipN (c : Cursor) : Nat → Cursor
  | 0 => c
  | n + 1 => c.skip.skipN n

/-- Moves over a line end; gives the line end to keep in a text. -/
def skipBreak (c : Cursor) : List Char × Cursor :=
  let next (n : Nat) (rest : List Char) : Cursor :=
    { c with rest, mark := ⟨c.mark.index + n, c.mark.line + 1, 0⟩, breaks := c.breaks + 1 }
  match c.rest with
  | '\r' :: '\n' :: rest => (['\n'], next 2 rest)
  | x :: rest =>
    if x == '\u2028' || x == '\u2029' then ([x], next 1 rest) else (['\n'], next 1 rest)
  | [] => ([], c)

/-- Moves over the characters of a line that satisfy `p`; gives them. -/
def span (p : Char → Bool) (c : Cursor) : List Char × Cursor :=
  let taken := c.rest.takeWhile p
  (taken, { c with
    rest := c.rest.drop taken.length
    mark := ⟨c.mark.index + taken.length, c.mark.line, c.mark.column + taken.length⟩
    breaks := if taken.all isBlank then c.breaks else 0 })

/-- Moves over the characters of a line that satisfy `p`. -/
def skipWhile (p : Char → Bool) (c : Cursor) : Cursor := (c.span p).2

/-- Moves over characters and line ends until `index` characters are behind. -/
def skipTo (index : Nat) : Nat → Cursor → Cursor
  | 0, c => c
  | bound + 1, c =>
    if index ≤ c.mark.index then c
    else skipTo index bound (if c.atBreak then c.skipBreak.2 else c.skip)

/-- Moves over the rest of a line. -/
def skipLine (c : Cursor) : Cursor := c.skipWhile fun x => !isBreak x

/-- Three equal characters at the start of a line, with a gap behind them. -/
def atMarker (c : Cursor) (x : Char) : Bool :=
  c.mark.column == 0 && c.sees 0 x && c.sees 1 x && c.sees 2 x && c.gapOrEnd 3

/-- The start or the end of a document is marked here. -/
def atDocumentMarker (c : Cursor) : Bool := c.atMarker '-' || c.atMarker '.'

end Cursor

end ListCalc.Yaml
