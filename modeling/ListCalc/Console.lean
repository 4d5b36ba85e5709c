/-
The interactive prompt.

The console shows a prompt, reads a line, and runs an entry once its lines are
complete.  Lines of entries that are not blank are kept to be recalled.  A prompt with
a control character cannot be shown and ends the conversation, as the end of the
input does.

* `Console.start` — reads settings and history;
* `Console.feed` — what one line of input does;
* `Console.converse` — what a whole input does;
* `Console.finish` — saves the history.
-/
import ListCalc.Recall
import ListCalc.Settings
import ListCalc.Text.Blank
import ListCalc.Text.Control

namespace ListCalc

/-- What is written to the two output channels. -/
structure Output where
  out : String
  err : String
  deriving DecidableEq

namespace Output

/-- Nothing. -/
def empty : Output := ⟨"", ""⟩

/-- Text on the main channel. -/
def say (s : String) : Output := ⟨s, ""⟩

/-- Text on the channel for errors. -/
def warn (s : String) : Output := ⟨"", s⟩

instance : Append Output := ⟨fun a b => ⟨a.out ++ b.out, a.err ++ b.err⟩⟩

end Output

/-- The state of a conversation: the session, the lines of an unfinished entry, the lines to be
recalled and how the conversation is set up.  The history file is empty if no history is kept. -/
structure Console where
  session : Session Token
  pending : String
  kept : Recall
  prompts : Prompts
  historyFile : String
  historyLimit : Nat

namespace Console

/-- The prompt to show next. -/
def prompt (c : Console) : String := c.prompts.choose c.pending

/-- The next prompt cannot be shown. -/
def isMute (c : Console) : Bool := c.prompt.toList.any Text.isControl

/-- Keeps the lines of an entry. -/
def remember (c : Console) (entry : String) : Console :=
  let lines := (entry.splitOn "\n").filter fun l => !Text.allBlank l
  { c with kept := lines.foldl Recall.add c.kept }

/-- Runs an entry and gives what it writes; a blank one does nothing. -/
def runEntry (bound : Nat) (c : Console) (entry : String) : Console × Output :=
  if Text.allBlank entry then (c, .empty)
  else
    let c := c.remember entry
    let (e, s) := (c.session.withWriter (Writer.fresh none)).runEntry bound entry
    ({ c with session := s },
      ⟨s.machine.out.text, (e.map (·.message ++ "\n")).getD ""⟩)

/-- Takes a line of input. -/
def feed (bound : Nat) (c : Console) (line : String) : Console × Output :=
  match Entry.feed c.pending line with
  | .pending text => ({ c with pending := text }, .empty)
  | .whole text => runEntry bound { c with pending := "" } text

/-- Takes all lines of an input, with a prompt in front of each. -/
def converse (bound : Nat) (c : Console) : List String → Console × Output
  | [] => (c, .say ((if c.isMute then "" else c.prompt) ++ "\n"))
  | line :: rest =>
    if c.isMute then (c, .say "\n")
    else
      let (c', o) := c.feed bound line
      let (c'', o') := c'.converse bound rest
      (c'', .say c.prompt ++ o ++ o')

/-- A warning, if there is something to warn of. -/
def warning (text : Option String) : Output :=
  .warn ((text.map fun t => "warning: " ++ t ++ "\n").getD "")

section

variable {m : Type → Type} [Monad m] [Storage m]

/-- Starts a conversation: reads the settings and the history and greets. -/
def start (version : String) (env : Environment) : m (Console × Output) := do
  let cache := cacheDirectory env
  let (settings, problem) ← Settings.load cache
  let keeps := 0 < settings.history
  let file := if keeps then settings.historyPath cache else ""
  let (refusal, kept) ←
    if file = "" then pure (none, Recall.mk [])
    else loadHistory Recall.absorb (Recall.mk []) file
  let console : Console :=
    ⟨Session.start (Writer.fresh none), "", kept, settings.prompts, file,
      settings.history.toNat⟩
  return (console,
    warning (problem.map fun e => e.message ++ "; using defaults")
      ++ warning (refusal.map HistoryError.message)
      ++ .say ("numel " ++ version ++ ". Press Ctrl+D to exit.\n"))

/-- Ends a conversation: saves the history. -/
def finish (c : Console) : m Output := do
  if c.historyFile = "" then return .empty
  match ← saveHistory (.ok c.kept.text) c.historyFile c.historyLimit with
  | .ok () => return .empty
  | .error e => return warning (some e.message)

end

end Console

end ListCalc
