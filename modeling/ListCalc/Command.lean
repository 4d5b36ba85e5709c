/-
The command line.

Without arguments the program starts the interactive prompt, with one argument it
runs a script.  The only flag asks for the version.  Flags come before other
arguments and start with one or two hyphens; two hyphens alone end them.

* `Command.ofArgs` — what the arguments ask for;
* `Command.run` — does it, with the input given as lines.
-/
import ListCalc.Console

namespace ListCalc

/-- How the program was built; `unknown` stands for what is not known. -/
structure Build where
  version : String
  commit : String
  date : String
  platform : String

namespace Build

/-- A build that was not released. -/
def development : Build := ⟨"dev", "unknown", "unknown", "linux/amd64"⟩

/-- The build in words. -/
def describe (b : Build) : String :=
  "numel " ++ b.version ++ " (" ++ b.platform ++ ")\n"
    ++ (if b.commit = "unknown" then "" else "  commit: " ++ b.commit ++ "\n")
    ++ (if b.date = "unknown" then "" else "  built:  " ++ b.date ++ "\n")

end Build

/-- What the arguments ask for. -/
inductive Command where
  | version
  | converse
  | script (path : String)
  /-- nothing that can be done, for the given reason or none -/
  | refused (reason : String)
  deriving DecidableEq

/-- How the program ended: the exit code and what it wrote. -/
structure Result where
  code : Nat
  output : Output
  deriving DecidableEq

namespace Command

/-- How to call the program. -/
def usage : String :=
  "Usage:\n"
    ++ "  numel            start the interactive prompt\n"
    ++ "  numel <file.nm>  run a script\n"
    ++ "\nFlags:\n"
    ++ "  -version\n    \tprint version information and exit\n"

/-- A truth value as flags spell it. -/
def truth? (s : String) : Option Bool :=
  if ["1", "t", "T", "true", "TRUE", "True"].contains s then some true
  else if ["0", "f", "F", "false", "FALSE", "False"].contains s then some false
  else none

/-- An argument in front of the others. -/
inductive Argument where
  /-- the end of the flags, by two hyphens -/
  | divider
  /-- not a flag -/
  | plain
  /-- a flag, with the text behind its equals sign if there is one -/
  | flag (name : String) (value : Option String)
  | malformed

/-- What an argument is. -/
def Argument.ofText (s : String) : Argument :=
  match s.toList with
  | '-' :: c :: rest =>
    if c = '-' && rest.isEmpty then .divider
    else
      match if c = '-' then rest else c :: rest with
      | [] => .malformed
      | first :: more =>
        if first = '-' || first = '=' then .malformed
        else
          let name := String.ofList (first :: more.takeWhile (· != '='))
          match more.dropWhile (· != '=') with
          | [] => .flag name none
          | _ :: value => .flag name (some (String.ofList value))
  | _ => .plain

/-- The command for the arguments behind the flags. -/
def ofOperands (version : Bool) (operands : List String) : Command :=
  if version then .version
  else match operands with
    | [] => .converse
    | [path] => .script path
    | _ => .refused ""

/-- The command for all arguments, where `version` says whether a flag has asked for the
version. -/
def ofArgsFrom (version : Bool) : List String → Command
  | [] => ofOperands version []
  | s :: rest =>
    match Argument.ofText s with
    | .plain => ofOperands version (s :: rest)
    | .divider => ofOperands version rest
    | .malformed => .refused ("bad flag syntax: " ++ s ++ "\n")
    | .flag name value =>
      if name = "version" then
        match value with
        | none => ofArgsFrom true rest
        | some v =>
          match truth? v with
          | some b => ofArgsFrom b rest
          | none =>
            .refused ("invalid boolean value " ++ Text.quote v ++ " for -version: parse error\n")
      else if name = "help" || name = "h" then .refused ""
      else .refused ("flag provided but not defined: -" ++ name ++ "\n")

/-- What the arguments ask for. -/
def ofArgs (args : List String) : Command := ofArgsFrom false args

/-- Runs a source and reports how it ended. -/
def runText (bound : Nat) (file source : String) (out : Writer) : Result :=
  let (e, w) := runSource bound file source out
  match e with
  | none => ⟨0, .say w.text⟩
  | some e => ⟨1, ⟨w.text, e.message ++ "\n"⟩⟩

section

variable {m : Type → Type} [Monad m] [Storage m]

/-- Runs a script. -/
def runScript (bound : Nat) (path : String) : m Result := do
  match ← Storage.readFile path with
  | .ok source => return runText bound path source (Writer.fresh none)
  | .error e => return ⟨1, .warn ("Error reading " ++ path ++ ": " ++ e.message ++ "\n")⟩

/-- Holds a whole conversation. -/
def runConversation (bound : Nat) (build : Build) (env : Environment) (lines : List String) :
    m Result := do
  let (console, greeting) ← Console.start build.version env
  let (console, talk) := console.converse bound lines
  let farewell ← console.finish
  return ⟨0, greeting ++ talk ++ farewell⟩

/-- Does what a command asks for. -/
def run (bound : Nat) (build : Build) (env : Environment) (lines : List String) :
    Command → m Result
  | version => return ⟨0, .say build.describe⟩
  | converse => runConversation bound build env lines
  | script path => runScript bound path
  | refused reason => return ⟨2, .warn (reason ++ usage)⟩

end

end Command

end ListCalc
