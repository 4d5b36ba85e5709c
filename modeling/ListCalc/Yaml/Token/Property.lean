/-
Directives, anchors and tags of a YAML stream.

Each of them is one token.  A directive takes the whole line.  Characters of a
tag may be written as a percent sign and two hexadecimal digits for each byte.
-/
import ListCalc.Text.Utf8
import ListCalc.Yaml.Token

namespace ListCalc.Yaml

/-- Reads the number of a version. -/
def versionNumber (start : Mark) (c : Cursor) : Except Error (Nat × Cursor) :=
  let (digits, c') := c.span Char.isDigit
  if 2 < digits.length then
    .error (.lexical start (c.skipN 2).mark "found extremely long version number")
  else if digits.isEmpty then
    .error (.lexical start c.mark "did not find expected version number")
  else .ok (digits.foldl (fun n d => n * 10 + (d.toNat - 0x30)) 0, c')

/-- Reads the value of a version directive. -/
def versionValue (start : Mark) (c : Cursor) : Except Error (TokenData × Cursor) := do
  let (major, c) ← versionNumber start (c.skipWhile isBlank)
  if !c.sees 0 '.' then
    throw (.lexical start c.mark "did not find expected digit or '.' character")
  let (minor, c) ← versionNumber start c.skip
  return (.versionDirective major minor, c)

/-- Reads the handle of a tag: a mark of exclamation, a name, and another mark if there is one. -/
def tagHandle (directive : Bool) (start : Mark) (c : Cursor) :
    Except Error (List Char × Cursor) := do
  if !c.sees 0 '!' then throw (.lexical start c.mark "did not find expected '!'")
  let (name, c) := c.skip.span isNameChar
  if c.sees 0 '!' then return ('!' :: name ++ ['!'], c.skip)
  else if directive && !name.isEmpty then
    throw (.lexical start c.mark "did not find expected '!'")
  else return ('!' :: name, c)

/-- A character of a tag. -/
def isTagChar (c : Char) : Bool :=
  isNameChar c || ";/?:@&=+$,.!~*'()[]".toList.contains c

/-- The byte that a percent sign and two digits stand for. -/
def octet? (c : Cursor) : Option UInt8 :=
  match c.rest with
  | '%' :: a :: b :: _ => (hexValue? [a, b]).map UInt8.ofNat
  | _ => none

/-- How many bytes a sequence has that starts with a byte; zero if none does. -/
def sequenceLength (b : UInt8) : Nat :=
  if b < 0x80 then 1
  else if 0xC0 ≤ b && b < 0xE0 then 2
  else if 0xE0 ≤ b && b < 0xF0 then 3
  else if 0xF0 ≤ b && b < 0xF8 then 4
  else 0

/-- Reads an escaped byte of a tag. -/
def tagOctet (start : Mark) (c : Cursor) : Except Error (UInt8 × Cursor) :=
  match octet? c with
  | some b => .ok (b, c.skipN 3)
  | none => .error (.lexical start c.mark "did not find URI escaped octet")

/-- Reads the escaped bytes that go on with a character. -/
def tagContinuation (start : Mark) : Nat → Cursor → Except Error (List UInt8 × Cursor)
  | 0, c => .ok ([], c)
  | n + 1, c => do
    let (b, c') ← tagOctet start c
    if !Text.isContinuation b then
      throw (.lexical start c.mark "found an incorrect trailing UTF-8 octet")
    let (bytes, c'') ← tagContinuation start n c'
    return (b :: bytes, c'')

/-- Reads an escaped character of a tag. -/
def tagEscape (start : Mark) (c : Cursor) : Except Error (List Char × Cursor) := do
  let (b, c') ← tagOctet start c
  let n := sequenceLength b
  if n = 0 then throw (.lexical start c.mark "found an incorrect leading UTF-8 octet")
  let (bytes, c'') ← tagContinuation start (n - 1) c'
  return (Text.decodeFrom 0 (b :: bytes), c'')

/-- Reads the characters of a tag. -/
def tagText (start : Mark) : Nat → List Char → Cursor → Except Error (List Char × Cursor)
  | 0, text, c => .ok (text, c)
  | bound + 1, text, c =>
    match c.peek 0 with
    | none => .ok (text, c)
    | some x =>
      if x == '%' then do
        let (cs, c') ← tagEscape start c
        tagText start bound (text ++ cs) c'
      else if isTagChar x then tagText start bound (text ++ [x]) c.skip
      else .ok (text, c)

/-- Reads the characters of a tag behind those already read; there must be some. -/
def tagUri (start : Mark) (front : List Char) (c : Cursor) : Except Error (List Char × Cursor) := do
  let (text, c') ← tagText start c.size front.tail c
  if front.isEmpty && text.isEmpty then
    throw (.lexical start c'.mark "did not find expected tag URI")
  return (text, c')

/-- Reads the value of a tag directive. -/
def tagValue (start : Mark) (c : Cursor) : Except Error (TokenData × Cursor) := do
  let (handle, c) ← tagHandle true start (c.skipWhile isBlank)
  if !c.atBlank then throw (.lexical start c.mark "did not find expected whitespace")
  let (front, c) ← tagUri start [] (c.skipWhile isBlank)
  if !c.gapOrEnd 0 then
    throw (.lexical start c.mark "did not find expected whitespace or line break")
  return (.tagDirective (String.ofList handle) (String.ofList front), c)

/-- Reads a directive up to the end of its line. -/
def scanDirective (c : Cursor) : Except Error (Token × Cursor) := do
  let start := c.mark
  let (name, c) := c.skip.span isNameChar
  if name.isEmpty then throw (.lexical start c.mark "could not find expected directive name")
  if !c.gapOrEnd 0 then
    throw (.lexical start c.mark "found unexpected non-alphabetical character")
  let (data, c) ← match String.ofList name with
    | "YAML" => versionValue start c
    | "TAG" => tagValue start c
    | _ => throw (.lexical start c.mark "found unknown directive name")
  let stop := c.mark
  let c := c.skipWhile isBlank
  let c := if c.sees 0 '#' then c.skipLine else c
  if !c.breakOrEnd 0 then
    throw (.lexical start c.mark "did not find expected comment or line break")
  return (⟨data, start, stop⟩, if c.atBreak then c.skipBreak.2 else c)

/-- Reads the name of an anchor or an alias. -/
def scanAnchor (data : String → TokenData) (c : Cursor) : Except Error (Token × Cursor) :=
  let start := c.mark
  let (name, c) := c.skip.span isNameChar
  if name.isEmpty || !(c.gapOrEnd 0 || (c.peek 0).any "?:,]\x7d%@`".toList.contains) then
    .error (.lexical start c.mark "did not find expected alphabetic or numeric character")
  else .ok (⟨data (String.ofList name), start, c.mark⟩, c)

/-- Reads a tag. -/
def scanTag (c : Cursor) : Except Error (Token × Cursor) := do
  let start := c.mark
  let (handle, suffix, c) ←
    if c.sees 1 '<' then do
      let (suffix, c) ← tagUri start [] (c.skipN 2)
      if !c.sees 0 '>' then throw (.lexical start c.mark "did not find the expected '>'")
      pure (([] : List Char), suffix, c.skip)
    else do
      let (handle, c) ← tagHandle false start c
      if 1 < handle.length && handle.getLast? == some '!' then
        let (suffix, c) ← tagUri start [] c
        pure (handle, suffix, c)
      else
        let (suffix, c) ← tagUri start handle c
        pure (if suffix.isEmpty then ([], ['!'], c) else (['!'], suffix, c))
  if !c.gapOrEnd 0 then
    throw (.lexical start c.mark "did not find expected whitespace or line break")
  return (⟨.tag (String.ofList handle) (String.ofList suffix), start, c.mark⟩, c)

end ListCalc.Yaml
