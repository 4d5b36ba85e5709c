/-
Scalars of a YAML stream.

A scalar is written plain, between quotes or as a block.  Line ends inside a
plain or quoted scalar are folded: one becomes a space, and of several the first
is dropped.  A block keeps its lines, or folds them, and ends with its
indentation.
-/
import ListCalc.Yaml.Cursor

namespace ListCalc.Yaml

/-- How a scalar is written. -/
inductive Style where
  | plain
  | singleQuoted
  | doubleQuoted
  | literal
  | folded
  deriving DecidableEq, Inhabited

/-! ### Gaps -/

/-- The blanks and line ends between two words of a scalar: blanks of the line, or the first line
end and those that follow it. -/
structure Gap where
  blanks : List Char
  first : List Char
  more : List Char
  broken : Bool

namespace Gap

/-- Nothing between two words. -/
def none : Gap := ⟨[], [], [], false⟩

/-- What the gap contributes to the text of the scalar. -/
def folded (g : Gap) : List Char :=
  if g.broken then
    if g.first.head? = some '\n' then (if g.more.isEmpty then [' '] else g.more)
    else g.first ++ g.more
  else g.blanks

end Gap

/-- Moves over blanks and line ends, at most `bound` of them.  `tabRefused` says which columns must
not hold a tab at the start of a line. -/
def scanGap (tabRefused : Nat → Bool) (tabError : Cursor → Error) :
    Nat → Gap → Cursor → Except Error (Gap × Cursor)
  | 0, g, c => .ok (g, c)
  | bound + 1, g, c =>
    match c.peek 0 with
    | none => .ok (g, c)
    | some x =>
      if isBlank x then
        if g.broken then
          if x == '\t' && tabRefused c.mark.column then .error (tabError c)
          else scanGap tabRefused tabError bound g c.skip
        else scanGap tabRefused tabError bound { g with blanks := g.blanks ++ [x] } c.skip
      else if isBreak x then
        let (end_, c') := c.skipBreak
        if g.broken then scanGap tabRefused tabError bound { g with more := g.more ++ end_ } c'
        else scanGap tabRefused tabError bound ⟨[], end_, g.more, true⟩ c'
      else .ok (g, c)

/-! ### Plain scalars -/

/-- A plain scalar ends before this character, inside or outside brackets. -/
def endsPlain (inFlow : Bool) (c : Cursor) : Bool :=
  (c.sees 0 ':' && c.gapOrEnd 1)
    || (inFlow && (c.peek 0).any fun x => [',', '?', '[', ']', '\x7b', '\x7d'].contains x)

/-- Reads a run of characters of a plain scalar. -/
def plainRun (inFlow : Bool) : Nat → Cursor → List Char × Cursor
  | 0, c => ([], c)
  | bound + 1, c =>
    match c.peek 0 with
    | none => ([], c)
    | some x =>
      if c.gapOrEnd 0 || endsPlain inFlow c then ([], c)
      else
        let (run, c') := plainRun inFlow bound c.skip
        (x :: run, c')

/-- Reads a plain scalar, where `indent` is the column its lines must reach outside brackets.  The
answer says whether a line end came last. -/
def scanPlain (inFlow : Bool) (indent : Nat) (start : Mark) :
    Nat → Gap → List Char → Cursor → Except Error (List Char × Bool × Cursor)
  | 0, g, text, c => .ok (text, g.broken, c)
  | bound + 1, g, text, c => do
    if c.atDocumentMarker || c.sees 0 '#' then return (text, g.broken, c)
    let (run, c) := plainRun inFlow c.size c
    let text := if run.isEmpty then text else text ++ g.folded ++ run
    let broken := g.broken && run.isEmpty
    if !(c.atBlank || c.atBreak) then return (text, broken, c)
    let (g, c) ← scanGap (fun column => column < indent)
      (fun c => .lexical start c.mark "found a tab character that violates indentation")
      c.size { Gap.none with broken } c
    if !inFlow && c.mark.column < indent then return (text, g.broken, c)
    scanPlain inFlow indent start bound g text c

/-! ### Quoted scalars -/

/-- The value of hexadecimal digits, if all of them are. -/
def hexValue? : List Char → Option Nat
  | cs => cs.foldlM (fun n c =>
    if c.isDigit then some (n * 16 + (c.toNat - 0x30))
    else if 'a' ≤ c && c ≤ 'f' then some (n * 16 + (c.toNat - 0x61 + 10))
    else if 'A' ≤ c && c ≤ 'F' then some (n * 16 + (c.toNat - 0x41 + 10))
    else none) 0

/-- The character that a letter behind a backslash stands for. -/
def simpleEscape? : Char → Option Char
  | '0' => some '\x00'
  | 'a' => some '\x07'
  | 'b' => some '\x08'
  | 't' => some '\t'
  | '\t' => some '\t'
  | 'n' => some '\n'
  | 'v' => some '\x0b'
  | 'f' => some '\x0c'
  | 'r' => some '\r'
  | 'e' => some '\x1b'
  | ' ' => some ' '
  | '"' => some '"'
  | '\'' => some '\''
  | '\\' => some '\\'
  | 'N' => some '\u0085'
  | '_' => some '\u00a0'
  | 'L' => some '\u2028'
  | 'P' => some '\u2029'
  | _ => none

/-- How many hexadecimal digits follow a letter behind a backslash. -/
def codeLength? : Char → Option Nat
  | 'x' => some 2
  | 'u' => some 4
  | 'U' => some 8
  | _ => none

/-- Reads an escape at a backslash. -/
def scanEscape (start : Mark) (c : Cursor) : Except Error (Char × Cursor) :=
  let unknown : Except Error (Char × Cursor) :=
    .error (.lexical start c.mark "found unknown escape character")
  match c.peek 1 with
  | none => unknown
  | some x =>
    match simpleEscape? x, codeLength? x with
    | some y, _ => .ok (y, c.skipN 2)
    | none, none => unknown
    | none, some n =>
      let c := c.skipN 2
      let digits := c.rest.take n
      match if digits.length = n then hexValue? digits else none with
      | none => .error (.lexical start c.mark "did not find expected hexdecimal number")
      | some v =>
        if (0xD800 ≤ v && v ≤ 0xDFFF) || 0x10FFFF < v then
          .error (.lexical start c.mark "found invalid Unicode character escape code")
        else .ok (Char.ofNat v, c.skipN n)

/-- Reads the characters of a quoted scalar up to a gap or the closing quote.  The answer says
whether an escaped line end came last. -/
def quotedRun (single : Bool) (start : Mark) :
    Nat → List Char → Cursor → Except Error (List Char × Bool × Cursor)
  | 0, text, c => .ok (text, false, c)
  | bound + 1, text, c =>
    match c.peek 0 with
    | none => .ok (text, false, c)
    | some x =>
      if isBlank x || isBreak x then .ok (text, false, c)
      else if single then
        if x == '\'' then
          if c.sees 1 '\'' then quotedRun single start bound (text ++ ['\'']) (c.skipN 2)
          else .ok (text, false, c)
        else quotedRun single start bound (text ++ [x]) c.skip
      else if x == '"' then .ok (text, false, c)
      else if x == '\\' then
        if (c.peek 1).any isBreak then .ok (text, true, c.skip.skipBreak.2)
        else do
          let (y, c') ← scanEscape start c
          quotedRun single start bound (text ++ [y]) c'
      else quotedRun single start bound (text ++ [x]) c.skip

/-- Reads a quoted scalar behind its opening quote, up to and including the closing one. -/
def scanQuoted (single : Bool) (start : Mark) :
    Nat → List Char → Cursor → Except Error (List Char × Cursor)
  | 0, text, c => .ok (text, c)
  | bound + 1, text, c => do
    if c.atDocumentMarker then
      throw (.lexical start c.mark "found unexpected document indicator")
    if c.atEnd then throw (.lexical start c.mark "found unexpected end of stream")
    let (text, broken, c) ← quotedRun single start c.size text c
    if c.sees 0 (if single then '\'' else '"') then return (text, c.skip)
    let (g, c) ← scanGap (fun _ => false) (fun c => .lexical start c.mark "") c.size
      { Gap.none with broken } c
    scanQuoted single start bound (text ++ g.folded) c

/-! ### Block scalars -/

/-- What happens to the line ends behind a block. -/
inductive Chomping where
  | strip
  | clip
  | keep
  deriving DecidableEq

/-- The signs behind the indicator of a block: chomping and indentation. -/
structure BlockHeader where
  chomping : Chomping
  increment : Nat

/-- Reads a chomping sign. -/
def scanChomping (c : Cursor) : Option Chomping × Cursor :=
  if c.sees 0 '+' then (some .keep, c.skip)
  else if c.sees 0 '-' then (some .strip, c.skip)
  else (none, c)

/-- Reads an indentation digit. -/
def scanIncrement (start : Mark) (c : Cursor) : Except Error (Nat × Cursor) :=
  match c.peek 0 with
  | some d =>
    if d == '0' then .error (.lexical start c.mark "found an indentation indicator equal to 0")
    else if d.isDigit then .ok (d.toNat - 0x30, c.skip)
    else .ok (0, c)
  | none => .ok (0, c)

/-- Reads the header of a block up to the end of its line. -/
def scanBlockHeader (start : Mark) (c : Cursor) : Except Error (BlockHeader × Cursor) := do
  let (before, c) := scanChomping c
  let (increment, c) ← scanIncrement start c
  let (after, c) := if before.isNone && increment ≠ 0 then scanChomping c else (none, c)
  let c := c.skipWhile isBlank
  let c := if c.sees 0 '#' then c.skipLine else c
  if !c.breakOrEnd 0 then
    throw (.lexical start c.mark "did not find expected comment or line break")
  return (⟨(before.or after).getD .clip, increment⟩, if c.atBreak then c.skipBreak.2 else c)

/-- Moves over empty lines and indentation; gives the line ends and the largest column seen.  With
indentation zero, all spaces count as indentation. -/
def blockBreaks (start : Mark) (indent : Nat) :
    Nat → List Char → Nat → Cursor → Except Error (List Char × Nat × Cursor)
  | 0, ends, widest, c => .ok (ends, widest, c)
  | bound + 1, ends, widest, c =>
    let inside (c : Cursor) : Bool := indent = 0 || c.mark.column < indent
    let spaces := (c.rest.takeWhile (· == ' ')).length
    let c := c.skipN (if indent = 0 then spaces else min spaces (indent - c.mark.column))
    let widest := max widest c.mark.column
    if inside c && c.sees 0 '\t' then
      .error (.lexical start c.mark
        "found a tab character where an indentation space is expected")
    else if c.atBreak then
      let (end_, c') := c.skipBreak
      blockBreaks start indent bound (ends ++ end_) widest c'
    else .ok (ends, widest, c)

/-- The text of a block read so far: the text, the end of its last line, the empty lines behind
it, and whether its last line started with a blank. -/
structure BlockText where
  text : List Char
  lineEnd : List Char
  ends : List Char
  blankLed : Bool

/-- Reads the lines of a block that reach its indentation. -/
def blockLines (literal : Bool) (start : Mark) (indent : Nat) :
    Nat → BlockText → Cursor → Except Error (BlockText × Cursor)
  | 0, b, c => .ok (b, c)
  | bound + 1, b, c =>
    if c.mark.column ≠ indent || c.atEnd then .ok (b, c)
    else do
      let blank := c.atBlank
      let joint :=
        if !literal && !b.blankLed && !blank && b.lineEnd.head? = some '\n' then
          if b.ends.isEmpty then [' '] else []
        else b.lineEnd
      let (line, c) := c.span fun x => !isBreak x
      let (lineEnd, c) := c.skipBreak
      let (ends, _, c) ← blockBreaks start indent c.size [] 0 c
      blockLines literal start indent bound
        ⟨b.text ++ joint ++ b.ends ++ line, lineEnd, ends, blank⟩ c

/-- Reads a block behind its indicator.  `parent` is the indentation around it, if any. -/
def scanBlock (literal : Bool) (parent : Option Nat) (start : Mark) (c : Cursor) :
    Except Error (List Char × Cursor) := do
  let (header, c) ← scanBlockHeader start c
  let given := if header.increment = 0 then 0 else parent.getD 0 + header.increment
  let (ends, widest, c) ← blockBreaks start given c.size [] 0 c
  let least := match parent with
    | some n => n + 1
    | none => 0
  let indent := if given = 0 then max (max widest least) 1 else given
  let (b, c) ← blockLines literal start indent c.size ⟨[], [], ends, false⟩ c
  let text := match header.chomping with
    | .strip => b.text
    | .clip => b.text ++ b.lineEnd
    | .keep => b.text ++ b.lineEnd ++ b.ends
  return (text, c)

end ListCalc.Yaml
