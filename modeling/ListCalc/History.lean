/-
History files.

The lines typed at the prompt are kept in a file.  The file is replaced as a
whole: the new text goes to a temporary file next to it, which is then moved
over it, so that a reader never sees half of it.  Both reading and replacing hold
a lock, for which a third file stands.

* `newest` — the last lines of a text;
* `saveHistory` — replaces the file by the newest lines of a text;
* `loadHistory` — hands the content of the file to a store; a file that does not
  exist is no error.
-/
import ListCalc.Path
import ListCalc.Storage
import ListCalc.Text.Lines

namespace ListCalc

/-- Why a history could not be saved or loaded. -/
inductive HistoryError where
  | makingDirectory (e : FileError)
  | locking (e : FileError)
  | opening (e : FileError)
  | reading (path reason : String)
  | collecting (reason : String)
  | writing (e : FileError)
  | replacing (path : String) (e : FileError)
  | beyond (first size : Nat)
  deriving DecidableEq

/-- The failure in words. -/
def HistoryError.message : HistoryError → String
  | makingDirectory e => "create history dir: " ++ e.message
  | locking e => "acquire history lock: " ++ e.message
  | opening e => "open history: " ++ e.message
  | reading path reason => "read history " ++ path ++ ": " ++ reason
  | collecting reason => "collect history: " ++ reason
  | writing e => "write history: " ++ e.message
  | replacing path e => "replace history " ++ path ++ ": " ++ e.message
  | beyond first size =>
    "runtime error: slice bounds out of range [" ++ toString first ++ ":" ++ toString size ++ "]"

/-- The last `limit` lines of a text. -/
def newest (limit : Nat) (text : String) : String :=
  let lines := Text.linesWithEnds text
  String.join (lines.drop (lines.length - limit))

section

variable {m : Type → Type} [Monad m] [Storage m] {α σ : Type}

/-- Makes the directory of a history file and acts while holding the lock of the file. -/
def withHistoryLock (path : String) (act : m (Except HistoryError α)) :
    m (Except HistoryError α) := do
  match ← Storage.makeDirectories (Path.parent path) with
  | .error e => return .error (.makingDirectory e)
  | .ok () =>
    match ← Storage.withLock (path ++ ".lock") act with
    | .error e => return .error (.locking e)
    | .ok r => return r

/-- Writes a text to a temporary file and moves it over the history file. -/
def replaceHistory (path text : String) : m (Except HistoryError Unit) := do
  let temporary := path ++ ".tmp"
  match ← Storage.writeFile temporary text with
  | .error e => return .error (.writing e)
  | .ok () =>
    match ← Storage.rename temporary path with
    | .ok () => return .ok ()
    | .error e =>
      Storage.remove temporary
      return .error (.replacing path e)

/-- Saves the newest `limit` lines of what a store has collected.  A negative limit asks for lines
from beyond the last one, and nothing is saved. -/
def saveHistory (collected : Except String String) (path : String) (limit : Int) :
    m (Except HistoryError Unit) := do
  match collected, limit with
  | .error reason, _ => return .error (.collecting reason)
  | .ok text, .ofNat n => withHistoryLock path (replaceHistory path (newest n text))
  | .ok text, .negSucc n =>
    let size := (Text.linesWithEnds text).length
    return .error (.beyond (size + n + 1) size)

/-- What a store makes of a file: the content, or why it could not be read, changes the store and
may be refused for some reason. -/
abbrev Absorb (σ : Type) := Except FileError String → σ → Option String × σ

/-- Loads a history file into a store. -/
def loadHistory (absorb : Absorb σ) (store : σ) (path : String) : m (Option HistoryError × σ) := do
  let read : m (Except HistoryError (Option (Except FileError String))) := do
    match ← Storage.readFile path with
    | .ok content => return .ok (some (.ok content))
    | .error e =>
      match e.action, e.cause with
      | .reading _, _ => return .ok (some (.error e))
      | _, .missing => return .ok none
      | _, _ => return .error (.opening e)
  match ← withHistoryLock path read with
  | .error e => return (some e, store)
  | .ok none => return (none, store)
  | .ok (some content) =>
    let (refusal, store') := absorb content store
    return (refusal.map (.reading path), store')

end

end ListCalc
