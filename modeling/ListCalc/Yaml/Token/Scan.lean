/-
Scanning the tokens of a YAML stream.

A key without a question mark is recognised by the colon behind it, so the
scanner remembers where keys may have started and puts the tokens for them in
front of what it has already read.  For that reason tokens wait in a queue: at
least two behind the first, and more if the first may turn out to be a key.

A scanner that fails says where it stands, and can be asked to go on from there.
-/
import ListCalc.Yaml.Comment
import ListCalc.Yaml.Portion
import ListCalc.Yaml.Token.Property

namespace ListCalc.Yaml

/-- A place where a key may have started: the number of the token there. -/
structure KeyStart where
  possible : Bool
  required : Bool
  number : Nat
  mark : Mark

/-- No key has started. -/
def KeyStart.none : KeyStart := ⟨false, false, 0, ⟨0, 0, 0⟩⟩

/-- The state of the scanner.  `indents` are the columns of the open blocks, innermost first, and
`keys` the possible keys outside all brackets and inside each open one, innermost last.  `starts`
are the numbers of the tokens where a key may have started, from `taken` on and in order, with the
number of brackets open there; a key that is given up because its line has ended leaves its number
behind.  Lines that start before the index `trimmed` lose their first character.  If there is a
`limit`, the text goes on behind it but cannot be read there.  `remarks` are those in front of the
tokens of the queue, in order. -/
structure Scanner where
  cursor : Cursor
  queue : List Token
  taken : Nat
  indents : List Nat
  keys : Array KeyStart
  starts : List (Nat × Nat)
  keyAllowed : Bool
  started : Bool
  trimmed : Nat
  limit : Option Nat
  remarks : List Remark

/-- An error, and the scanner where it was found. -/
structure Stuck where
  error : Error
  scanner : Scanner

namespace Scanner

/-- The mark that tells the order of bytes. -/
def byteOrderMark : Char := '\uFEFF'

/-- A scanner at the start of a stream.  A byte order mark in front is passed over.  If another one
follows, then all lines of the first portion lose their first character, as that one does. -/
def ofText (text : List Char) : Scanner :=
  let marked := text.head? = some byteOrderMark
  let text := if marked then text.tail else text
  let budget := if marked then portionBytes - byteOrderMark.utf8Size else portionBytes
  let limit := readable? budget text
  let text := match limit with
    | some n => text.take n
    | none => text
  let trimmed := if text.head? = some byteOrderMark then portionLength budget text - 1 else 0
  ⟨.ofText text, [], 0, [], #[], [], false, false, trimmed, limit, []⟩

/-- How many brackets are open. -/
def flowLevel (s : Scanner) : Nat := s.keys.size - 1

/-- A bracket is open. -/
def inFlow (s : Scanner) : Bool := 0 < s.flowLevel

/-- The possible key inside a number of brackets. -/
def keyAt (s : Scanner) (depth : Nat) : KeyStart := s.keys[depth]?.getD .none

/-- The possible key of the innermost bracket. -/
def lastKey (s : Scanner) : KeyStart := s.keyAt s.flowLevel

/-- How many brackets may be open, and how many blocks. -/
def maxDepth : Nat := 10000

/-- Where the scanner stands. -/
def mark (s : Scanner) : Mark := s.cursor.mark

/-- Stops with an error. -/
def fail {α : Type} (s : Scanner) (e : Error) : Except Stuck α := .error ⟨e, s⟩

/-- Stops with an error that is about the place where it is found. -/
def failHere {α : Type} (s : Scanner) (problem : String) : Except Stuck α :=
  s.fail (.lexical s.mark s.mark problem)

/-- Adds a token to the end of the queue. -/
def push (s : Scanner) (t : Token) : Scanner := { s with queue := s.queue ++ [t] }

/-- Puts a token in front of the one with the given number, or to the end of the queue if that one
has been taken. -/
def insertAt (s : Scanner) (number : Nat) (t : Token) : Scanner :=
  let n := if number < s.taken then s.queue.length else number - s.taken
  { s with queue := s.queue.take n ++ t :: s.queue.drop n }

/-- The number of the token that comes next. -/
def nextNumber (s : Scanner) : Nat := s.taken + s.queue.length

/-- Reads `n` characters as a token. -/
def indicator (s : Scanner) (data : TokenData) (n : Nat) : Scanner :=
  let c := s.cursor.skipN n
  { s.push ⟨data, s.mark, c.mark⟩ with cursor := c }

/-- Reads at the cursor.  If that fails, the scanner stands where it failed. -/
def reading {α : Type} (s : Scanner) (scan : Cursor → Except Error (α × Cursor)) :
    Except Stuck (α × Scanner) :=
  match scan s.cursor with
  | .ok (a, c) => .ok (a, { s with cursor := c })
  | .error e => { s with cursor := s.cursor.skipTo e.reached s.cursor.size }.fail e

/-! ### Keys -/

/-- The error for a key that has no colon. -/
def missingColon (s : Scanner) (k : KeyStart) : Error :=
  .lexical k.mark s.mark "could not find expected ':'"

/-- A possible key can still be one: it is on the current line and not far back. -/
def keyValid (s : Scanner) (k : KeyStart) : Except Stuck Bool :=
  if !k.possible then .ok false
  else if k.mark.line < s.mark.line || k.mark.index + 1024 < s.mark.index then
    if k.required then s.fail (s.missingColon k) else .ok false
  else .ok true

/-- Forgets where a key may have started. -/
def forgetStart (s : Scanner) (k : KeyStart) : Scanner :=
  { s with starts := s.starts.filter (·.1 != k.number) }

/-- Gives up the possible key inside a number of brackets. -/
def giveUp (s : Scanner) (depth : Nat) : Scanner :=
  { s with keys := s.keys.modify depth ({ · with possible := false }) }

/-- Forgets the possible key of the innermost bracket. -/
def dropKey (s : Scanner) : Except Stuck Scanner :=
  let k := s.lastKey
  if !k.possible then .ok s
  else if k.required then s.fail (s.missingColon k)
  else .ok ((s.giveUp s.flowLevel).forgetStart k)

/-- Remembers that a key may start here. -/
def saveKey (s : Scanner) : Except Stuck Scanner :=
  if !s.keyAllowed then .ok s
  else do
    let required := !s.inFlow && s.indents.head? == some s.mark.column
    let s' ← s.dropKey
    let number := s.nextNumber
    return { s' with
      keys := s'.keys.modify s.flowLevel fun _ => ⟨true, required, number, s.mark⟩
      starts := s'.starts ++ [(number, s.flowLevel)] }

/-- The error for too many open brackets or blocks, about the mark of a key. -/
def tooDeep (s : Scanner) (k : KeyStart) : Error :=
  .lexical k.mark s.mark ("exceeded max depth of " ++ toString maxDepth)

/-! ### Indentation -/

/-- Opens a block at a column that is deeper than the current one; the token for it goes in front
of the one with the given number, or to the end. -/
def roll (s : Scanner) (column : Nat) (number : Option Nat) (data : TokenData) (mark : Mark) :
    Except Stuck Scanner :=
  if s.inFlow || s.indents.head?.any (column ≤ ·) then .ok s
  else
    let t : Token := ⟨data, mark, mark⟩
    let s := { s with indents := column :: s.indents }
    if maxDepth < s.indents.length then s.fail (s.tooDeep s.lastKey)
    else .ok <| match number with
      | some n => s.insertAt n t
      | none => s.push t

/-- Closes the blocks that are deeper than a column, all of them if there is none; their ends get
the given mark. -/
def unroll (s : Scanner) (column : Option Nat) (mark : Mark) : Scanner :=
  if s.inFlow then s
  else
    let deeper (i : Nat) : Bool := column.all (· < i)
    let closed := s.indents.takeWhile deeper
    { s with
      indents := s.indents.drop closed.length
      queue := s.queue ++ closed.map fun _ => ⟨.blockEnd, mark, mark⟩ }

/-! ### Between tokens -/

/-- What decides that comments at a cursor are about what comes before them.  The gap that they are
in starts at the mark `before`. -/
def footing (s : Scanner) (before : Mark) (c : Cursor) : Footing :=
  let below := c.mark.line - c.breaks + 1
  let valueOpen := s.queue.getLast?.any (·.data = .value)
  { line :=
      if before.line = 0 || valueOpen then none
      else some (if c.breaks = 0 && 1 < c.mark.column then below + 1 else below)
    indent := s.indents.head?.getD 0 }

/-- Moves over the comments at the cursor, if there are any.  Outside brackets a remark is kept. -/
def skipComments (s : Scanner) (before : Mark) : Scanner :=
  let c := s.cursor
  if c.sees 0 '#' then
    let (r, c') := readComments (s.footing before c) c.size ⟨some c.mark, false, c.breaks ≤ 1⟩ c
    let kept := if s.inFlow then none else r.remark?
    { s with cursor := c', remarks := s.remarks ++ kept.toList }
  else s

/-- Moves over blanks, comments and line ends in the gap that starts at the mark `before`.  Tabs
count as blanks where no key may start. -/
def skipGap (before : Mark) : Nat → Scanner → Scanner
  | 0, s => s
  | bound + 1, s =>
    let c := s.cursor
    let c := if c.mark.column == 0 && c.mark.index < s.trimmed then c.skip else c
    let c := c.skipWhile fun x => x == ' ' || ((s.inFlow || !s.keyAllowed) && x == '\t')
    let s := { s with cursor := c }.skipComments before
    if s.cursor.atBreak then
      skipGap before bound
        { s with cursor := s.cursor.skipBreak.2, keyAllowed := s.keyAllowed || !s.inFlow }
    else s

/-- The last token takes a comment behind it: it is no hyphen of an entry, and no line has ended
behind it. -/
def takesComment (s : Scanner) : Bool :=
  s.cursor.breaks == 0 && !s.queue.getLast?.any (·.data = .blockEntry)

/-- Moves over a comment behind a token on the same line, with fewer than 512 blanks between. -/
def skipLineComment (s : Scanner) : Scanner :=
  let blanks := ((s.cursor.rest.take 512).takeWhile isBlank).length
  if s.takesComment && blanks < 512 && s.cursor.sees blanks '#' then
    { s with cursor := (s.cursor.skipN blanks).skipLine }
  else s

/-! ### Single tokens -/

/-- Reads the end of the stream. -/
def fetchStreamEnd (s : Scanner) : Except Stuck Scanner := do
  let m := s.mark
  let m : Mark := if m.column = 0 then m else ⟨m.index, m.line + 1, 0⟩
  let s := { s with cursor := { s.cursor with mark := m } }.unroll none m
  let s ← s.dropKey
  return { s.push ⟨.streamEnd, m, m⟩ with keyAllowed := false }

/-- Reads a directive. -/
def fetchDirective (s : Scanner) : Except Stuck Scanner := do
  let s ← (s.unroll none s.mark).dropKey
  let (t, s) ← { s with keyAllowed := false }.reading scanDirective
  return s.push t

/-- Reads the mark of the start or the end of a document. -/
def fetchDocumentMarker (s : Scanner) (data : TokenData) : Except Stuck Scanner := do
  let s ← (s.unroll none s.mark).dropKey
  return { s.indicator data 3 with keyAllowed := false }

/-- Reads an opening bracket.  Until a key may start inside, the place inside bears the number of
the bracket itself. -/
def fetchFlowStart (s : Scanner) (data : TokenData) : Except Stuck Scanner := do
  let s ← s.saveKey
  let k : KeyStart := ⟨false, false, s.nextNumber, s.mark⟩
  let s := { s with keys := s.keys.push k }
  if maxDepth < s.flowLevel then s.fail (s.tooDeep k)
  else return { s.indicator data 1 with keyAllowed := true }

/-- Reads a closing bracket.  If no key could start inside, it is forgotten that the brackets may be
a key: they still become one, but nobody waits for their colon. -/
def fetchFlowEnd (s : Scanner) (data : TokenData) : Except Stuck Scanner := do
  let s ← s.dropKey
  let s := if s.inFlow then { s.forgetStart s.lastKey with keys := s.keys.pop } else s
  return { s.indicator data 1 with keyAllowed := false }

/-- Reads a comma between brackets. -/
def fetchFlowEntry (s : Scanner) : Except Stuck Scanner := do
  let s ← s.dropKey
  return { s.indicator .flowEntry 1 with keyAllowed := true }

/-- Reads the hyphen of an entry. -/
def fetchBlockEntry (s : Scanner) : Except Stuck Scanner := do
  if !s.inFlow && !s.keyAllowed then
    s.failHere "block sequence entries are not allowed in this context"
  let s ← s.roll s.mark.column none .blockSequenceStart s.mark
  let s ← s.dropKey
  return { s.indicator .blockEntry 1 with keyAllowed := true }

/-- Reads the question mark of a key. -/
def fetchKey (s : Scanner) : Except Stuck Scanner := do
  if !s.inFlow && !s.keyAllowed then
    s.failHere "mapping keys are not allowed in this context"
  let s ← s.roll s.mark.column none .blockMappingStart s.mark
  let s ← s.dropKey
  return { s.indicator .key 1 with keyAllowed := !s.inFlow }

/-- Reads the colon of a value; a possible key in front of it becomes one. -/
def fetchValue (s : Scanner) : Except Stuck Scanner := do
  let k := s.lastKey
  if ← s.keyValid k then
    let s := s.insertAt k.number ⟨.key, k.mark, k.mark⟩
    let s ← s.roll k.mark.column (some k.number) .blockMappingStart k.mark
    return { ((s.giveUp s.flowLevel).forgetStart k).indicator .value 1 with keyAllowed := false }
  else
    let s := s.giveUp s.flowLevel
    if !s.inFlow && !s.keyAllowed then
      s.failHere "mapping values are not allowed in this context"
    let s ← s.roll s.mark.column none .blockMappingStart s.mark
    return { s.indicator .value 1 with keyAllowed := !s.inFlow }

/-- Reads what can stand as a key by itself. -/
def fetchAtom (s : Scanner) (scan : Cursor → Except Error (Token × Cursor)) :
    Except Stuck Scanner := do
  let s ← s.saveKey
  let (t, s) ← { s with keyAllowed := false }.reading scan
  return s.push t

/-- Reads a quoted scalar. -/
def fetchQuoted (s : Scanner) (single : Bool) : Except Stuck Scanner :=
  s.fetchAtom fun c => do
    let (text, c') ← scanQuoted single c.mark c.size [] c.skip
    let style := if single then Style.singleQuoted else .doubleQuoted
    return (⟨.scalar (String.ofList text) style, c.mark, c'.mark⟩, c')

/-- Reads a plain scalar; a line end behind it lets a key start. -/
def fetchPlain (s : Scanner) : Except Stuck Scanner := do
  let s ← s.saveKey
  let indent := match s.indents.head? with
    | some n => n + 1
    | none => 0
  let ((t, broken), s) ← { s with keyAllowed := false }.reading fun c => do
    let (text, broken, c') ← scanPlain s.inFlow indent c.mark c.size .none [] c
    return ((Token.mk (.scalar (String.ofList text) .plain) c.mark c'.mark, broken), c')
  return { s.push t with keyAllowed := broken }

/-- Reads a block scalar; a key may start behind it. -/
def fetchBlock (s : Scanner) (literal : Bool) : Except Stuck Scanner := do
  let s ← s.dropKey
  let style := if literal then Style.literal else .folded
  let (t, s) ← { s with keyAllowed := true }.reading fun c => do
    let (text, c') ← scanBlock literal s.indents.head? c.mark c.skip
    return (Token.mk (.scalar (String.ofList text) style) c.mark c'.mark, c')
  return s.push t

/-- A plain scalar can start here. -/
def startsPlain (s : Scanner) : Bool :=
  let c := s.cursor
  !(c.gapOrEnd 0 || (c.peek 0).any "-?:,[]\x7b\x7d#&*!|>'\"%@`".toList.contains)
    || (c.sees 0 '-' && !(c.peek 1).any isBlank)
    || (!s.inFlow && (c.sees 0 '?' || c.sees 0 ':') && !c.gapOrEnd 1)

/-- Reads the token that starts at the cursor. -/
def fetchHere (s : Scanner) : Except Stuck Scanner :=
  let c := s.cursor
  let c0 := (c.peek 0).getD ' '
  match c0 with
  | '[' => s.fetchFlowStart .flowSequenceStart
  | '\x7b' => s.fetchFlowStart .flowMappingStart
  | ']' => s.fetchFlowEnd .flowSequenceEnd
  | '\x7d' => s.fetchFlowEnd .flowMappingEnd
  | ',' => s.fetchFlowEntry
  | '*' => s.fetchAtom (scanAnchor .reference)
  | '&' => s.fetchAtom (scanAnchor .anchor)
  | '!' => s.fetchAtom scanTag
  | '\'' => s.fetchQuoted true
  | '"' => s.fetchQuoted false
  | _ =>
    if c0 == '-' && c.gapOrEnd 1 then s.fetchBlockEntry
    else if c0 == '?' && (s.inFlow || c.gapOrEnd 1) then s.fetchKey
    else if c0 == ':' && (s.inFlow || c.gapOrEnd 1) then s.fetchValue
    else if c0 == '|' && !s.inFlow then s.fetchBlock true
    else if c0 == '>' && !s.inFlow then s.fetchBlock false
    else if s.startsPlain then s.fetchPlain
    else s.failHere "found character that cannot start any token"

/-- Reads the token behind the gap at the cursor. -/
def fetchToken (s : Scanner) : Except Stuck Scanner :=
  if s.cursor.atEnd then s.fetchStreamEnd
  else if s.mark.column == 0 && s.cursor.sees 0 '%' then s.fetchDirective
  else if s.cursor.atMarker '-' then s.fetchDocumentMarker .documentStart
  else if s.cursor.atMarker '.' then s.fetchDocumentMarker .documentEnd
  else do
    let s ← s.fetchHere
    return s.skipLineComment

/-- The text `n` characters behind an index can be read. -/
def canReach (s : Scanner) (index n : Nat) : Bool := s.limit.all (index + n ≤ ·)

/-- Reads at least one more token.  Before a token the next four characters must be readable, and
behind it the next two. -/
def fetchNext (s : Scanner) : Except Stuck Scanner :=
  if !s.canReach s.mark.index 1 then s.fail .forbidden
  else if !s.started then
    .ok { s.push ⟨.streamStart, s.mark, s.mark⟩ with
      keys := #[.none], keyAllowed := true, started := true }
  else
    let before := s.mark
    let s := s.skipGap before s.cursor.size
    let s := s.unroll (some s.mark.column) before
    if !s.canReach s.mark.index 4 then s.fail .forbidden
    else match s.fetchToken with
      | .ok s => if s.canReach s.mark.index 2 then .ok s else s.fail .forbidden
      | .error stuck =>
        stuck.scanner.fail (if s.canReach stuck.error.reached 2 then stuck.error else .forbidden)

/-- More tokens are needed before the first of the queue is certain: there must be two behind it,
and it must not be where a key may have started. -/
def needsMore (s : Scanner) : Except Stuck (Bool × Scanner) :=
  if s.queue.length ≤ 2 then .ok (true, s)
  else match s.starts.lookup s.taken with
    | none => .ok (false, s)
    | some depth => do
      if ← s.keyValid (s.keyAt depth) then return (true, s)
      else return (false, s.giveUp depth)

/-- Reads tokens until the first of the queue is certain. -/
def fetchMore : Nat → Scanner → Except Stuck Scanner
  | 0, s => .ok s
  | bound + 1, s => do
    let (more, s) ← s.needsMore
    if more then fetchMore bound (← s.fetchNext) else return s

/-- The scanner with a certain token in front of its queue. -/
def ready (s : Scanner) : Except Stuck Scanner :=
  s.fetchMore (s.cursor.size + 4)

/-- Takes the first token of the queue. -/
def pop (s : Scanner) : Scanner :=
  { s with
    queue := s.queue.tail
    taken := s.taken + 1
    starts := s.starts.dropWhile (·.1 ≤ s.taken) }

end Scanner

end ListCalc.Yaml
