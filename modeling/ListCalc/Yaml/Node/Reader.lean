/-
Reading the documents of a YAML stream.

A node without a tag gets the one of its kind, and a plain scalar the one of the
datum it stands for.  Remarks change nothing in a document, but they do decide
which of two failures is told: behind the hyphen of an entry with a remark in
front, the first failure is not the last word.

* `readDocument` — the first document of a text, or none if there is none.
-/
import ListCalc.Yaml.Datum
import ListCalc.Yaml.Node
import ListCalc.Yaml.Token.Scan

namespace ListCalc.Yaml

/-- The state of reading a document: the tokens, the remarks about what comes next, the numbers of
the anchors by name, the nodes with an anchor by number, how many aliases there are, and the tags
that handles stand for. -/
structure Reading where
  scanner : Scanner
  remarks : List Remark
  anchors : List (String × Nat)
  anchored : List (Nat × Node)
  references : Nat
  handles : List (String × String)

/-- Reads a part of a document. -/
abbrev Reader := StateT Reading (Except Error)

namespace Reader

/-- The next token.  Remarks in front of it are about it, or about what it opens; none is about the
end of a block. -/
def peek : Reader Token := do
  let r ← get
  match r.scanner.ready with
  | .error stuck => throw stuck.error
  | .ok s =>
    let t := s.queue.head?.getD default
    let passed (m : Remark) : Bool := t.data ≠ .blockEnd && m.index ≤ t.start.index
    set { r with
      scanner := { s with remarks := s.remarks.dropWhile passed }
      remarks := r.remarks ++ s.remarks.takeWhile passed }
    return t

/-- Moves over the next token. -/
def skip : Reader Unit :=
  modify fun r => { r with scanner := r.scanner.pop }

/-- Moves over the next token, with which the remarks so far end. -/
def skipRemarked : Reader Unit := do
  modify fun r => { r with remarks := [] }
  skip

/-- Moves over the next token and gives the one behind it. -/
def advance : Reader Token := do
  skip
  peek

/-- Reads a node behind its anchor, if there is one, which stands for it also inside. -/
def withAnchor (anchor : Option String) (node : Reader Node) : Reader Node := do
  match anchor with
  | none => node
  | some name =>
    let number := (← get).anchors.length
    modify fun r => { r with anchors := (name, number) :: r.anchors }
    let n ← node
    modify fun r => { r with anchored := (number, n) :: r.anchored }
    return n

/-- The tag of a scalar without one.  Only a plain scalar is looked at. -/
def impliedTag (text : String) (style : Style) : String :=
  if style ≠ .plain then "!!str"
  else if text = "<<" then "!!merge"
  else (datumOf true text).tag

/-- A scalar with a tag, or with the one it implies. -/
def scalarNode (start : Mark) (tag text : String) (style : Style) : Node :=
  let tag := if tag = "" || tag = "!" then impliedTag text style else shortTag tag
  .scalar (start.line + 1) tag text

/-- A scalar that is not written. -/
def emptyNode (start : Mark) : Node := scalarNode start "" "" .plain

/-- The tag of a collection. -/
def collectionTag (tag implied : String) : String :=
  if tag = "" || tag = "!" then implied else shortTag tag

/-- The anchor and the tag in front of a node, and the token behind them. -/
structure Properties where
  start : Mark
  anchor : Option String
  tag : Option (String × String × Mark)
  next : Token

/-- Reads an anchor and a tag, in either order. -/
def properties : Reader Properties := do
  let t ← peek
  match t.data with
  | .anchor a =>
    let t' ← advance
    match t'.data with
    | .tag h s => return ⟨t.start, some a, some (h, s, t'.start), ← advance⟩
    | _ => return ⟨t.start, some a, none, t'⟩
  | .tag h s =>
    let t' ← advance
    match t'.data with
    | .anchor a => return ⟨t.start, some a, some (h, s, t.start), ← advance⟩
    | _ => return ⟨t.start, none, some (h, s, t.start), t'⟩
  | _ => return ⟨t.start, none, none, t⟩

/-- The tag that a handle and a suffix stand for; empty if there is none. -/
def fullTag (p : Properties) : Reader String := do
  match p.tag with
  | none => return ""
  | some (handle, suffix, mark) =>
    if handle = "" then return suffix
    match (← get).handles.lookup handle with
    | some front => return front ++ suffix
    | none => throw (.structural p.start mark "found undefined tag handle")

/-- One of some kinds of token. -/
def oneOf (t : Token) (data : List TokenData) : Bool := data.contains t.data

/-- Reads a node, or takes an empty one if one of the given tokens comes first. -/
def nodeUnless (stops : List TokenData) (t : Token) (mark : Mark) (node : Reader Node) :
    Reader Node :=
  if oneOf t stops then pure (emptyNode mark) else node

/-- What kind of node its first tokens open. -/
inductive Shape where
  | reference (name : String)
  | scalar (text : String) (style : Style)
  | unwritten
  | flowSequence
  | flowMapping
  | flatSequence
  | blockSequence
  | blockMapping

/-- The shape that a token opens behind an anchor and a tag, if there are any.  Blocks may stand
outside brackets only, and a sequence that is not indented only as the value of a pair in a
block. -/
def Shape.ofToken? (block flat : Bool) : TokenData → Option Shape
  | .scalar text style => some (.scalar text style)
  | .flowSequenceStart => some .flowSequence
  | .flowMappingStart => some .flowMapping
  | .blockEntry => if flat then some .flatSequence else none
  | .blockSequenceStart => if block then some .blockSequence else none
  | .blockMappingStart => if block then some .blockMapping else none
  | _ => none

/-- The start of a node: its anchor, its tag in full, its shape, and the marks of the first token
and of the one that gives the shape. -/
structure Opening where
  start : Mark
  anchor : Option String
  tag : String
  shape : Shape
  inner : Mark

/-- Reads the start of a node up to the token that gives its shape.  An anchor or a tag may stand
alone, in front of a scalar that is not written. -/
def opening (block flat : Bool) : Reader Opening := do
  let t ← peek
  if let .reference name := t.data then
    return ⟨t.start, none, "", .reference name, t.start⟩
  let p ← properties
  let tag ← fullTag p
  let t := p.next
  let alone := if p.anchor.isSome || tag ≠ "" then some Shape.unwritten else none
  match (Shape.ofToken? block flat t.data).or alone with
  | some shape => return ⟨p.start, p.anchor, tag, shape, t.start⟩
  | none => throw (.structural p.start t.start "did not find expected node content")

/-- Looks behind the hyphen of an entry that has remarks in front of it, as many as `held`.  If a
block starts there, they are about it and not about what is inside.  If the look fails, reading goes
on up to the shape of the entry, and a second failure there is the one told. -/
def peekHeld (stops : List TokenData) (held : Nat) : Reader Token := do
  let r ← get
  match r.scanner.ready with
  | .ok _ =>
    let t ← peek
    if oneOf t [.blockSequenceStart, .blockMappingStart] then
      modify fun r => { r with remarks := r.remarks.drop held }
    return t
  | .error stuck =>
    let further : Reader Unit := do
      let t ← peek
      if !oneOf t stops then discard (opening true false)
    match further.run { r with scanner := stuck.scanner } with
    | .ok _ => throw stuck.error
    | .error e => throw (stuck.error.followedBy e)

/-- Reads an entry at its hyphen, or takes an empty one if one of the given tokens follows. -/
def entry (stops : List TokenData) (hyphen : Token) (node : Reader Node) : Reader Node := do
  let held := (← get).remarks.length
  skip
  let t ← if held = 0 then peek else peekHeld stops held
  nodeUnless stops t hyphen.stop node

/-- Reads the entries of a sequence in a block of its own. -/
def blockSequence (node : Reader Node) (start : Mark) : Nat → Reader (List Node)
  | 0 => pure []
  | bound + 1 => do
    let t ← peek
    match t.data with
    | .blockEntry =>
      let n ← entry [.blockEntry, .blockEnd] t node
      return n :: (← blockSequence node start bound)
    | .blockEnd =>
      skip
      return []
    | _ => throw (.structural start t.start "did not find expected '-' indicator")

/-- Reads the entries of a sequence that is not indented. -/
def flatSequence (node : Reader Node) : Nat → Reader (List Node)
  | 0 => pure []
  | bound + 1 => do
    let t ← peek
    match t.data with
    | .blockEntry =>
      let n ← entry [.blockEntry, .key, .value, .blockEnd] t node
      return n :: (← flatSequence node bound)
    | _ => return []

/-- Reads the value of a pair in a block. -/
def blockValue (node : Reader Node) : Reader Node := do
  let t ← peek
  match t.data with
  | .value =>
    let t' ← advance
    nodeUnless [.key, .value, .blockEnd] t' t.stop node
  | _ => return emptyNode t.start

/-- Reads the pairs of a mapping in a block. -/
def blockMapping (node : Reader Node) (start : Mark) : Nat → Reader (List (Node × Node))
  | 0 => pure []
  | bound + 1 => do
    let t ← peek
    match t.data with
    | .key =>
      let t' ← advance
      let k ← nodeUnless [.key, .value, .blockEnd] t' t.stop node
      let v ← blockValue node
      return (k, v) :: (← blockMapping node start bound)
    | .blockEnd =>
      skipRemarked
      return []
    | _ => throw (.structural start t.start "did not find expected key")

/-- Reads a pair that stands as an entry between brackets, behind its key indicator `sign`. -/
def flowPair (node : Reader Node) (sign : Token) : Reader Node := do
  let t ← peek
  let k ←
    if oneOf t [.value, .flowEntry, .flowSequenceEnd] then do
      skip
      pure (emptyNode t.stop)
    else node
  let t ← peek
  let v ←
    if t.data = .value then do
      let t' ← advance
      nodeUnless [.flowEntry, .flowSequenceEnd] t' t'.start node
    else pure (emptyNode t.start)
  return .mapping (sign.start.line + 1) "!!map" [(k, v)]

/-- Reads the entries of a sequence between brackets. -/
def flowSequence (node : Reader Node) (start : Mark) : Nat → Bool → Reader (List Node)
  | 0, _ => pure []
  | bound + 1, first => do
    let mut t ← peek
    if t.data ≠ .flowSequenceEnd && !first then
      if t.data = .flowEntry then t ← advance
      else throw (.structural start t.start "did not find expected ',' or ']'")
    if t.data = .flowSequenceEnd then
      skipRemarked
      return []
    let n ←
      if t.data = .key then do
        skip
        flowPair node t
      else node
    return n :: (← flowSequence node start bound false)

/-- Reads the value of a pair between braces. -/
def flowValue (node : Reader Node) : Reader Node := do
  let t ← peek
  if t.data = .value then
    let t' ← advance
    nodeUnless [.flowEntry, .flowMappingEnd] t' t'.start node
  else return emptyNode t.start

/-- Reads the pairs of a mapping between braces. -/
def flowMapping (node : Reader Node) (start : Mark) : Nat → Bool → Reader (List (Node × Node))
  | 0, _ => pure []
  | bound + 1, first => do
    let mut t ← peek
    if t.data ≠ .flowMappingEnd && !first then
      if t.data = .flowEntry then t ← advance
      else throw (.structural start t.start "did not find expected ',' or '\x7d'")
    if t.data = .flowMappingEnd then
      skipRemarked
      return []
    let pair ←
      if t.data = .key then do
        let t' ← advance
        let k ← nodeUnless [.value, .flowEntry, .flowMappingEnd] t' t'.start node
        let v ← flowValue node
        pure (k, v)
      else do
        let k ← node
        let t' ← peek
        pure (k, emptyNode t'.start)
    return pair :: (← flowMapping node start bound false)

/-- The node that an alias names. -/
def referenceNode (start : Mark) (name : String) : Reader Node := do
  let r ← get
  match r.anchors.lookup name with
  | some anchor =>
    set { r with references := r.references + 1 }
    skipRemarked
    return .reference (start.line + 1) name r.references anchor
  | none => throw (.general ("unknown anchor '" ++ name ++ "' referenced"))

/-- Reads a node, in a block or between brackets.  A sequence that is not indented may stand as
the value of a pair in a block.  The bound limits the depth of the tree and the length of its
collections. -/
def node : Nat → Bool → Bool → Reader Node
  | 0, _, _ => throw (.general "document is nested too deeply")
  | bound + 1, block, flat => do
    let o ← opening block flat
    let line := o.start.line + 1
    let inFlow := node bound false false
    let inBlock := node bound true false
    let inPair := node bound true true
    let sequence := Node.sequence line (collectionTag o.tag "!!seq")
    let mapping := Node.mapping line (collectionTag o.tag "!!map")
    withAnchor o.anchor do
      match o.shape with
      | .reference name => referenceNode o.start name
      | .scalar text style =>
        skipRemarked
        return scalarNode o.start o.tag text style
      | .unwritten => return scalarNode o.start o.tag "" .plain
      | .flowSequence =>
        skipRemarked
        sequence <$> flowSequence inFlow o.inner bound true
      | .flowMapping =>
        skipRemarked
        mapping <$> flowMapping inFlow o.inner bound true
      | .flatSequence => sequence <$> flatSequence inBlock bound
      | .blockSequence =>
        skip
        sequence <$> blockSequence inBlock o.inner bound
      | .blockMapping =>
        skip
        mapping <$> blockMapping inPair o.inner bound

/-- Reads the directives in front of a document. -/
def directives : Nat → Bool → Reader Unit
  | 0, _ => pure ()
  | bound + 1, versionSeen => do
    let t ← peek
    let fail (problem : String) : Reader Unit := throw (.structural ⟨0, 0, 0⟩ t.start problem)
    match t.data with
    | .versionDirective major minor =>
      if versionSeen then fail "found duplicate %YAML directive"
      else if major ≠ 1 || minor ≠ 1 then fail "found incompatible YAML document"
      else
        skip
        directives bound true
    | .tagDirective handle front =>
      if ((← get).handles.lookup handle).isSome then fail "found duplicate %TAG directive"
      else
        modify fun r => { r with handles := (handle, front) :: r.handles }
        skip
        directives bound versionSeen
    | _ => pure ()

/-- The handles that need no directive. -/
def standardHandles : List (String × String) :=
  [("!", "!"), ("!!", "tag:yaml.org,2002:")]

/-- A directive. -/
def isDirective : TokenData → Bool
  | .versionDirective _ _ => true
  | .tagDirective _ _ => true
  | _ => false

/-- Reads a document behind its marked start. -/
def content (bound : Nat) : Reader Node := do
  let t ← peek
  if isDirective t.data || oneOf t [.documentStart, .documentEnd, .streamEnd] then
    return emptyNode t.start
  node bound true false

/-- Of the remarks in front of a document, those about its first node: an empty line behind the last
of them makes all of them about the document. -/
def openingRemarks (remarks : List Remark) : List Remark :=
  if remarks.getLast?.any Remark.loose then [] else remarks

/-- Reads the first document of a stream, if there is one, and looks at what follows it. -/
def document (bound : Nat) : Reader (Option Node) := do
  let _ ← peek
  let t ← advance
  if t.data = .streamEnd then return none
  let marked := t.data = .documentStart || isDirective t.data
  if marked then
    directives bound false
    let t ← peek
    if t.data ≠ .documentStart then
      throw (.structural ⟨0, 0, 0⟩ t.start "did not find expected <document start>")
    skip
  else
    modify fun r => { r with remarks := openingRemarks r.remarks }
  modify fun r => { r with handles := r.handles ++ standardHandles }
  let n ← if marked then content bound else node bound true false
  let _ ← peek
  return some n

end Reader

/-- The first document of a text, or none if there is none. -/
def readDocument (text : String) : Except Error (Option Document) := do
  let cs := text.toList
  let (root?, r) ← (Reader.document (4 * cs.length + 8)).run ⟨.ofText cs, [], [], [], 0, []⟩
  return root?.map fun root => ⟨root, r.anchored⟩

end ListCalc.Yaml
