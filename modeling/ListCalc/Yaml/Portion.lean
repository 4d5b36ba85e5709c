/-
Portions of a YAML stream.

A stream is read in portions of as many whole characters as have 512 bytes.  A
character that is not allowed spoils the portion it is in, and nothing of that
portion can be read.

* `portionLength` — how many characters the first portion has;
* `readable?` — how far a text can be read, if not to its end.
-/

namespace ListCalc.Yaml

/-- A character that may stand in a stream. -/
def isAllowed (c : Char) : Bool :=
  let n := c.toNat
  n == 0x09 || n == 0x0A || n == 0x0D || (0x20 ≤ n && n ≤ 0x7E) || n == 0x85
    || (0xA0 ≤ n && n ≤ 0xD7FF) || (0xE000 ≤ n && n ≤ 0xFFFD) || 0x10000 ≤ n

/-- How many bytes a portion has at most. -/
def portionBytes : Nat := 512

/-- How many characters at the front of a text have `budget` bytes at most. -/
def portionLength : Nat → List Char → Nat
  | _, [] => 0
  | budget, c :: cs =>
    if c.utf8Size ≤ budget then portionLength (budget - c.utf8Size) cs + 1 else 0

/-- Where the first spoiled portion starts, if there is one.  The portion being read has started
at `start` and has room for `room` more bytes at `index`. -/
def spoiledFrom? (room index start : Nat) : List Char → Option Nat
  | [] => none
  | c :: cs =>
    let fits := decide (c.utf8Size ≤ room)
    let room := if fits then room else portionBytes
    let start := if fits then start else index
    if isAllowed c then spoiledFrom? (room - c.utf8Size) (index + 1) start cs else some start

/-- How many characters of a text can be read, if not all of them, where the first portion has
`budget` bytes. -/
def readable? (budget : Nat) (text : List Char) : Option Nat := spoiledFrom? budget 0 0 text

end ListCalc.Yaml
