/-
Settings of the interactive prompt.

The settings are read from a file in the cache directory: a mapping with four
fields, each of which may be missing.  A file that does not exist leaves the
defaults; so does, with an error, a file that cannot be read, that has other
fields or values of the wrong kind, or that asks for a negative history.

* `cacheDirectory` — where the file is;
* `Settings.decode` — the settings that a text gives;
* `Settings.load` — the settings that the file gives.
-/
import ListCalc.Entry
import ListCalc.Path
import ListCalc.Storage
import ListCalc.Text.Utf8
import ListCalc.Yaml.Node.Reader

namespace ListCalc

/-- The settings: two prompts, how many lines of history are kept (zero for none), and the file
that keeps them (empty for none). -/
structure Settings where
  prompts : Prompts
  history : Int
  historyFile : String
  deriving DecidableEq

namespace Settings

/-- The settings without a file. -/
def defaults : Settings :=
  ⟨⟨">> ", ".. "⟩, 1000, "history"⟩

/-- The path of the history file; a relative one is below the cache directory. -/
def historyPath (s : Settings) (cache : String) : String :=
  if s.historyFile = "" || Path.isAbsolute s.historyFile then s.historyFile
  else Path.join [cache, s.historyFile]

/-! ### Decoding -/

/-- The settings decoded so far and what is wrong with them; inside a merge, the names that must
not be set any more.  `active` holds the numbers of the aliases whose nodes are being decoded,
`decoded` says how many nodes have been decoded, and `repeated` how many of them inside an
alias. -/
structure Draft where
  settings : Settings
  complaints : List String
  closed : Option (List String)
  active : List Nat
  decoded : Nat
  repeated : Nat

namespace Draft

/-- Nothing but the document itself has been looked at. -/
def start : Draft := ⟨defaults, [], none, [], 1, 0⟩

/-- Most of the work comes from aliases: more than 99 of 100 nodes up to 400000 nodes, from there
on falling to more than 10 of 100 at 4000000. -/
def excessive (d : Draft) : Bool :=
  let share : Nat :=
    if d.decoded ≤ 400000 then 356400000
    else if 4000000 ≤ d.decoded then 36000000
    else 356400000 - 89 * (d.decoded - 400000)
  100 < d.repeated && 1000 < d.decoded && d.decoded * share < d.repeated * 360000000

end Draft

/-- Decodes a part of a document. -/
abbrev Decoder := StateT Draft (Except Yaml.Error)

namespace Decoder

open Yaml (Document Node Datum)

/-- Adds complaints, each about a line. -/
def complainAll (about : List (Nat × String)) : Decoder Unit :=
  modify fun d =>
    { d with
      complaints := d.complaints ++ about.map fun (line, text) =>
        "line " ++ toString line ++ ": " ++ text }

/-- Adds a complaint about a line. -/
def complain (line : Nat) (text : String) : Decoder Unit := complainAll [(line, text)]

/-- A text between backticks, cut after seven bytes if it has more than ten. -/
def excerpt (s : String) : String :=
  if 10 < s.utf8ByteSize then "`" ++ Text.decode (s.toUTF8.toList.take 7) ++ "...`"
  else "`" ++ s ++ "`"

/-- Complains that a node cannot be what is wanted.  The value stands directly behind the tag of a
collection. -/
def mismatch (line : Nat) (tag value wanted : String) : Decoder Unit :=
  let shown := if tag = "!!seq" || tag = "!!map" then value else " " ++ excerpt value
  complain line ("cannot unmarshal " ++ tag ++ shown ++ " into " ++ wanted)

/-- The complaints about keys that occur twice. -/
def repeatedKeys : List (Node × Node) → List (Nat × String)
  | [] => []
  | (k, _) :: rest =>
    (rest.filterMap fun (k', _) =>
      if k.sameKind k' && k.value = k'.value then
        some (k'.line, "mapping key " ++ Text.quote k'.value ++ " already defined at line "
          ++ toString k.line)
      else none) ++ repeatedKeys rest

/-- Complains about keys that occur twice; says whether there are none. -/
def checkKeys (pairs : List (Node × Node)) : Decoder Bool := do
  let repeated := repeatedKeys pairs
  complainAll repeated
  return repeated.isEmpty

/-- Counts a node that is decoded. -/
def count : Decoder Unit := do
  modify fun d =>
    { d with decoded := d.decoded + 1, repeated := d.repeated + min d.active.length 1 }
  if (← get).excessive then throw (.general "document contains excessive aliasing")

/-- Decodes what a node stands for: the node itself, or the one that an alias names. -/
def withTarget {α : Type} (doc : Document) (n : Node) (decode : Node → Decoder α) : Decoder α := do
  count
  match n with
  | .reference _ name number anchor =>
    let active := (← get).active
    if active.contains number then
      throw (.general ("anchor '" ++ name ++ "' value contains itself"))
    modify fun d => { d with active := number :: active }
    count
    let a ← decode (doc.anchoredNode anchor)
    modify fun d => { d with active }
    return a
  | _ => decode n

/-- Complains that a node is no scalar that could be what is wanted. -/
def notScalar (wanted : String) : Node → Decoder Unit
  | .sequence line tag _ => mismatch line tag "" wanted
  | .mapping line tag pairs => do
    if ← checkKeys pairs then mismatch line tag "" wanted
  | _ => pure ()

/-- The text of a node; none for an empty one. -/
def text (doc : Document) (n : Node) : Decoder (Option String) :=
  withTarget doc n fun
    | .scalar _ tag value => do
      match ← Yaml.resolve tag value with
      | .null => return none
      | .text s => return some s
      | _ => return some value
    | other => do
      notScalar "string" other
      return none

/-- The whole number that a number with a fraction is cut to, as a 64-bit word: numbers below the
range become the least one, and none is above it. -/
def truncated? (x : Float) : Option Int :=
  if !(x ≤ 9223372036854775807.0) then none
  else if 9223372036854775807.0 ≤ x || x < -9223372036854775808.0 then some (-9223372036854775808)
  else if x < 0.0 then some (-Int.ofNat (-x).toUInt64.toNat)
  else some (Int.ofNat x.toUInt64.toNat)

/-- The whole number of a node; none for an empty one. -/
def whole (doc : Document) (n : Node) : Decoder (Option Int) :=
  withTarget doc n fun
    | .scalar line tag value => do
      let refuse : Decoder (Option Int) := do
        mismatch line tag value "int"
        return none
      match ← Yaml.resolve tag value with
      | .null => return none
      | .int i => if i < 0x8000000000000000 then return some i else refuse
      | .float x =>
        match truncated? x with
        | some i => return some i
        | none => refuse
      | _ => refuse
    | other => do
      notScalar "int" other
      return none

/-- Replaces a text of the settings, unless the node is empty. -/
def setText (doc : Document) (n : Node) (put : String → Settings → Settings) : Decoder Unit := do
  if let some s ← text doc n then modify fun d => { d with settings := put s d.settings }

/-- How each field is decoded. -/
def field? (doc : Document) (name : String) : Option (Node → Decoder Unit) :=
  match name with
  | "prompt" =>
    some fun n => setText doc n fun s c => { c with prompts := { c.prompts with primary := s } }
  | "continue_prompt" =>
    some fun n =>
      setText doc n fun s c => { c with prompts := { c.prompts with continuation := s } }
  | "history_file" => some fun n => setText doc n fun s c => { c with historyFile := s }
  | "history" => some fun n => do
    if let some i ← whole doc n then
      modify fun d => { d with settings := { d.settings with history := i } }
  | _ => none

/-- How the settings as a whole are named in complaints. -/
def wholeName : String := "main.Config"

/-- Decodes one field, given its key and the names already set. -/
def pair (doc : Document) (done : List String) (k v : Node) : Decoder (List String) := do
  match ← text doc k with
  | none => return done
  | some name =>
    let d ← get
    if d.closed.any (·.contains name) then return done
    set { d with closed := d.closed.map (name :: ·) }
    match field? doc name with
    | some decode =>
      if done.contains name then
        complain k.line ("field " ++ name ++ " already set in type " ++ wholeName)
        return done
      decode v
      return name :: done
    | none =>
      complain k.line ("field " ++ name ++ " not found in type " ++ wholeName)
      return done

/-- A key that merges another mapping. -/
def isMerge : Node → Bool
  | .scalar _ tag value => value = "<<" && tag = "!!merge"
  | _ => false

/-- Decodes the fields of a mapping in order, those that merge apart. -/
def pairs (doc : Document) (done : List String) : List (Node × Node) → Decoder Unit
  | [] => pure ()
  | (k, v) :: rest => do
    if isMerge k then pairs doc done rest
    else
      let done ← pair doc done k v
      pairs doc done rest

/-- The keys of a mapping that are texts. -/
def textKeys (doc : Document) : List (Node × Node) → Decoder (List String)
  | [] => return []
  | (k, _) :: rest => do
    let names ← withTarget doc k fun
      | .scalar _ tag value => do
        match ← Yaml.resolve tag value with
        | .text s => return [s]
        | _ => return []
      | _ => return []
    return names ++ (← textKeys doc rest)

/-- Acts inside a merge into a mapping, whose keys are closed to it.  A merge inside another one
closes no more than that one has. -/
def merging (doc : Document) (ps : List (Node × Node)) (act : Decoder Unit) : Decoder Unit := do
  if (← get).closed.isSome then act
  else
    let names ← textKeys doc ps
    modify fun d => { d with closed := some names }
    act
    modify fun d => { d with closed := none }

/-- A node is a mapping or an alias of one. -/
def isMapping (doc : Document) : Node → Bool
  | .mapping _ _ _ => true
  | .reference _ _ _ anchor =>
    match doc.anchoredNode anchor with
    | .mapping _ _ _ => true
    | _ => false
  | _ => false

/-- The mappings that a node merges: itself or those it lists.  An item is looked at when its turn
comes. -/
def mergeEach (doc : Document) (decode : Node → Decoder Unit) (n : Node) : Decoder Unit :=
  let one (n : Node) : Decoder Unit :=
    if isMapping doc n then decode n
    else throw (.general "map merge requires map or sequence of maps as the value")
  match n with
  | .sequence _ _ items => items.forM one
  | _ => one n

/-- Decodes the settings from a node, through at most `bound` merges inside each other. -/
def settings (doc : Document) : Nat → Node → Decoder Unit
  | 0, _ => throw (.general "document contains excessive aliasing")
  | bound + 1, n => withTarget doc n fun
    | .scalar line tag value => do
      match ← Yaml.resolve tag value with
      | .null => pure ()
      | _ => mismatch line tag value wholeName
    | .sequence line tag _ => mismatch line tag "" wholeName
    | .mapping _ _ ps => do
      if ← checkKeys ps then
        pairs doc [] ps
        if let some (_, v) := ps.reverse.find? fun (k, _) => isMerge k then
          merging doc ps (mergeEach doc (settings doc bound) v)
    | .reference _ _ _ _ => pure ()

/-- Decodes the settings from a document.  A node is inside itself at most once through each
alias, which bounds how deep merges go. -/
def document (text : String) (doc : Document) : Decoder Unit :=
  settings doc ((text.length + 2) * (text.length + 2)) doc.root

end Decoder

/-- The settings that a text gives, or what is wrong with it. -/
def decode (text : String) : Except String Settings :=
  match Yaml.readDocument text with
  | .error e => .error ("yaml: " ++ e.message)
  | .ok none => .ok defaults
  | .ok (some doc) =>
    match (Decoder.document text doc).run .start with
    | .error e => .error ("yaml: " ++ e.message)
    | .ok (_, d) =>
      if d.complaints.isEmpty then .ok d.settings
      else .error ("yaml: unmarshal errors:\n  " ++ "\n  ".intercalate d.complaints)

end Settings

/-! ### The file -/

/-- Why the settings could not be read from their file. -/
inductive SettingsError where
  | opening (path : String) (e : FileError)
  | parsing (path reason : String)
  | negativeHistory (path : String) (given : Int)
  deriving DecidableEq

/-- The failure in words. -/
def SettingsError.message : SettingsError → String
  | opening path e => "config: open " ++ path ++ ": " ++ e.message
  | parsing path reason => "config: parse " ++ path ++ ": " ++ reason
  | negativeHistory path n =>
    "config: " ++ path ++ ": history must not be negative, got " ++ toString n

namespace Settings

/-- The settings that the content of a file gives, and an error if they are the defaults for want
of better ones. -/
def ofFile (path : String) (content : Except FileError String) : Settings × Option SettingsError :=
  match content with
  | .ok text =>
    match decode text with
    | .ok s =>
      if s.history < 0 then (defaults, some (.negativeHistory path s.history)) else (s, none)
    | .error reason => (defaults, some (.parsing path reason))
  | .error e =>
    match e.action, e.cause with
    | .reading _, _ => (defaults, some (.parsing path ("yaml: input error: " ++ e.message)))
    | _, .missing => (defaults, none)
    | _, _ => (defaults, some (.opening path e))

/-- Reads the settings from the file in the cache directory. -/
def load {m : Type → Type} [Monad m] [Storage m] (cache : String) :
    m (Settings × Option SettingsError) := do
  let path := Path.join [cache, "config.yaml"]
  return ofFile path (← Storage.readFile path)

end Settings

/-! ### The cache directory -/

/-- What the environment says about directories; a variable that is not set is empty. -/
structure Environment where
  home : String
  cacheHome : String
  cache : String
  deriving DecidableEq

/-- The directory of settings and history. -/
def cacheDirectory (env : Environment) : String :=
  if env.cache ≠ "" then env.cache
  else if env.cacheHome ≠ "" then Path.join [env.cacheHome, "numel"]
  else Path.join [env.home, ".cache", "numel"]

end ListCalc
