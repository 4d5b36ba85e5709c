/-
The program.

Files are those of the machine, lines come from standard input and are read as
they are needed, and what the program writes goes to standard output and standard
error.
-/
import ListCalc.Command
import ListCalc.Text.ReadAhead

namespace ListCalc

/-- More steps than any run takes that ends in practice. -/
def stepLimit : Nat := 0x4000000000000000

/-- Why a file operation of the machine failed. -/
def causeOf : IO.Error → FileError.Cause
  | .noFileOrDirectory .. => .missing
  | .inappropriateType .. => .notDirectory
  | .alreadyExists .. => .alreadyExists
  | .invalidArgument .. => .invalid
  | e => .other (toString e)

/-- Carries out a file operation of the machine. -/
def attempt {α : Type} (action : FileAction) (act : IO α) : IO (Except FileError α) := do
  try
    let a ← act
    return .ok a
  catch e => return .error ⟨action, causeOf e⟩

instance : Storage IO where
  readFile path := do
    match ← attempt (.opening path) (IO.FS.Handle.mk path .read) with
    | .error e => return .error e
    | .ok _ => attempt (.reading path) do
      let bytes ← IO.FS.readBinFile path
      return Text.decode bytes.toList
  makeDirectories path := attempt (.makingDirectory path) (IO.FS.createDirAll path)
  withLock path act := do
    match ← attempt (.opening path) (IO.FS.Handle.mk path .append) with
    | .error e => return .error e
    | .ok h =>
      h.lock
      let a ← act
      h.unlock
      return .ok a
  writeFile path content := attempt (.opening path) (IO.FS.writeFile path content)
  rename source target := attempt (.moving source target) (IO.FS.rename source target)
  remove path := do
    let _ ← attempt (.opening path) (IO.FS.removeFile path)

/-- Writes output to its channels. -/
def Output.emit (o : Output) : IO Unit := do
  let out ← IO.getStdout
  out.putStr o.out
  out.flush
  let err ← IO.getStderr
  err.putStr o.err
  err.flush

/-- Talks until the input ends; `ahead` are lines that have been read and not yet taken. -/
partial def Console.talk (c : Console) (ahead : List String) : IO Console := do
  if c.isMute then
    Output.emit (.say "\n")
    return c
  Output.emit (.say c.prompt)
  let ahead ←
    if ahead.isEmpty then pure (Text.typedLines (← (← IO.getStdin).getLine)) else pure ahead
  match ahead with
  | [] =>
    Output.emit (.say "\n")
    return c
  | line :: rest =>
    let (c', o) := c.feed stepLimit line
    o.emit
    c'.talk rest

/-- The directories that the environment names. -/
def machineEnvironment : IO Environment := do
  let lookup (name : String) : IO String := return (← IO.getEnv name).getD ""
  return ⟨← lookup "HOME", ← lookup "XDG_CACHE_HOME", ← lookup "NUMELCACHE"⟩

/-- Does what the arguments ask for; gives the exit code. -/
def perform (args : List String) : IO UInt32 := do
  let env ← machineEnvironment
  match Command.ofArgs args with
  | .converse =>
    let (console, greeting) ← Console.start Build.development.version env
    greeting.emit
    let farewell ← (← console.talk []).finish
    farewell.emit
    return 0
  | command =>
    let r ← command.run stepLimit Build.development env []
    r.output.emit
    return r.code.toUInt32

end ListCalc

def main (args : List String) : IO UInt32 :=
  ListCalc.perform args
