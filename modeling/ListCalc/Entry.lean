/-
Entries typed at a prompt.

An entry is read line by line.  Lines are gathered as long as more text could
complete what they spell; then the entry is handed over, whether it is a program
or an error.  An interrupt drops the pending lines.

* `Entry.feed` — what one more line makes of the pending text;
* `Entry.read` — reads one entry;
* `Entry.readAll` — reads entries until the input is exhausted;
* `completions` — how the word at the end of a line can go on.
-/
import ListCalc.Builtin
import ListCalc.Session

namespace ListCalc

/-- The prompts: one for the first line of an entry and one for the lines that continue it. -/
structure Prompts where
  primary : String
  continuation : String
  deriving DecidableEq

/-- The prompt to show for the pending text. -/
def Prompts.choose (p : Prompts) (pending : String) : String :=
  if pending = "" then p.primary else p.continuation

namespace Entry

/-- What a line makes of the pending text. -/
inductive Fed where
  /-- the text could still be completed -/
  | pending (text : String)
  /-- the entry is there -/
  | whole (text : String)
  deriving DecidableEq

/-- The pending text with one more line. -/
def extend (pending line : String) : String :=
  if pending = "" then line else pending ++ "\n" ++ line

/-- More text could complete a source. -/
def isIncomplete (source : String) : Bool :=
  match parse Session.entryLabel source with
  | .ok _ => false
  | .error e => e.isIncomplete

/-- Adds a line to the pending text. -/
def feed (pending line : String) : Fed :=
  let text := extend pending line
  if isIncomplete text then .pending text else .whole text

/-- How reading an entry ends. -/
inductive Ending where
  | entry (text : String)
  | interrupted
  | exhausted
  deriving DecidableEq

/-- An entry that was read: how it ended, the prompts shown for it and the input left. -/
structure Reading where
  ending : Ending
  prompts : List String
  rest : List (Option String)
  deriving DecidableEq

/-- Reads an entry whose first lines are pending.  `none` stands for an interrupt. -/
def readFrom (p : Prompts) (pending : String) : List (Option String) → Reading
  | [] => ⟨.exhausted, [p.choose pending], []⟩
  | none :: rest => ⟨.interrupted, [p.choose pending], rest⟩
  | some line :: rest =>
    match feed pending line with
    | .whole text => ⟨.entry text, [p.choose pending], rest⟩
    | .pending text =>
      let r := readFrom p text rest
      { r with prompts := p.choose pending :: r.prompts }

/-- Reads an entry. -/
def read (p : Prompts) (lines : List (Option String)) : Reading :=
  readFrom p "" lines

/-- Reads entries from at most `bound` lines; the last one is the exhausted one. -/
def readMany (p : Prompts) : Nat → List (Option String) → List Reading
  | 0, lines => [read p lines]
  | bound + 1, lines =>
    let r := read p lines
    if r.ending = .exhausted then [r] else r :: readMany p bound r.rest

/-- Reads entries until the input is exhausted. -/
def readAll (p : Prompts) (lines : List (Option String)) : List Reading :=
  readMany p lines.length lines

end Entry

/-! ### Completion -/

/-- The words that mean something in a session: keywords, reserved names and bound names. -/
def Session.words {τ : Type} (s : Session τ) : List String :=
  keywordTexts ++ reservedNames ++ s.names

/-- The longest run of word characters at the end of a line. -/
def lastWord (line : List Char) : List Char :=
  (line.reverse.takeWhile isWordChar).reverse

/-- The line with its last word replaced by each of the words that it starts; none if the line
does not end in a word. -/
def completions (line : String) (words : List String) : List String :=
  let cs := line.toList
  let word := lastWord cs
  if word.isEmpty then []
  else
    let front := String.ofList (cs.take (cs.length - word.length))
    (words.filter fun w => word.isPrefixOf w.toList).map (front ++ ·)

end ListCalc
