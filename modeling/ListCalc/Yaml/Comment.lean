/-
Comments between the tokens of a YAML stream.

Comments carry no data, but each is about something.  Comments that stand on lines
of their own are about what follows them, unless they stand right below what comes
before them, with an empty line behind, or left of the block they are in.

* `Remark` — a comment about what follows it;
* `readComments` — moves over comments and tells which of them are a remark.
-/
import ListCalc.Yaml.Cursor

namespace ListCalc.Yaml

/-- A comment about what follows it: how many characters come before it, and whether an empty line
stands behind it. -/
structure Remark where
  index : Nat
  loose : Bool

/-- What decides that comments are about what comes before them: the line right below that, unless a
value is still to come, and the column of the block around them. -/
structure Footing where
  line : Option Nat
  indent : Nat

/-- Comments that start at a mark are about what comes before them, if an empty line follows. -/
def Footing.holds (f : Footing) (m : Mark) : Bool :=
  f.line == some m.line || decide (m.column < f.indent)

/-- Comments on successive lines, as far as they may be a remark: where the first of them starts, if
there is any, and whether an empty line stands behind the last.  They are `first` as long as there
is no empty line in front of them. -/
structure CommentRun where
  start : Option Mark
  loose : Bool
  first : Bool

namespace CommentRun

/-- A comment follows that starts at a mark. -/
def comment (r : CommentRun) (m : Mark) : CommentRun :=
  { r with start := r.start.or (some m), loose := false }

/-- An empty line follows. -/
def emptyLine (r : CommentRun) (f : Footing) : CommentRun :=
  { start := if r.first && r.start.any f.holds then none else r.start
    loose := true
    first := false }

/-- Something follows at a column.  If that is left of the block, then comments at another column
are about the block. -/
def meet (r : CommentRun) (f : Footing) (column : Nat) : CommentRun :=
  if column < f.indent && r.start.any (·.column != column) then { r with start := none } else r

/-- The remark that the comments are, if they are one. -/
def remark? (r : CommentRun) : Option Remark :=
  r.start.map fun m => ⟨m.index, r.loose⟩

end CommentRun

/-- Moves over a comment and over those that follow it with nothing but blanks and plain line
ends between, fewer than 512 each time.  A comment bears the line of the one before it and the
empty lines between. -/
def readComments (f : Footing) : Nat → CommentRun → Cursor → CommentRun × Cursor
  | 0, r, c => (r, c)
  | bound + 1, r, c =>
    let c := c.skipLine
    let gap := (c.rest.take 512).takeWhile fun x => isBlank x || x == '\r' || x == '\n'
    let stop := if gap.length < 512 then c.peek gap.length else none
    let next := c.skipTo (c.mark.index + gap.length) gap.length
    let r := if ((gap ++ stop.toList).drop 1).any isBreak then r.emptyLine f else r
    let r := match stop with
      | some x => r.meet f (if isBreak x then 0 else next.mark.column)
      | none => r
    if stop == some '#' then
      let line := c.mark.line + (gap.drop 1).countP isBreak
      readComments f bound (r.comment { next.mark with line }) next
    else (r, c)

end ListCalc.Yaml
