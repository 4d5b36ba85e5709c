/-
Files.

`Storage` lists the file operations that the program needs.  Each of them can
fail with a `FileError`, which says what was tried and why it failed.  Programs
that use files are written against this class, so that they run on a disk of the
machine as well as on a `Disk` in memory.
-/

namespace ListCalc

/-- What was tried on a file. -/
inductive FileAction where
  | opening (path : String)
  | reading (path : String)
  | makingDirectory (path : String)
  | moving (source target : String)
  deriving DecidableEq

/-- Why it failed. -/
inductive FileError.Cause where
  | missing
  | notDirectory
  | isDirectory
  | alreadyExists
  | invalid
  | nameTooLong
  | other (text : String)
  deriving DecidableEq

/-- A file operation that failed. -/
structure FileError where
  action : FileAction
  cause : FileError.Cause
  deriving DecidableEq

/-- The action in words. -/
def FileAction.text : FileAction → String
  | opening p => "open " ++ p
  | reading p => "read " ++ p
  | makingDirectory p => "mkdir " ++ p
  | moving p q => "rename " ++ p ++ " " ++ q

/-- The cause in words. -/
def FileError.Cause.text : FileError.Cause → String
  | missing => "no such file or directory"
  | notDirectory => "not a directory"
  | isDirectory => "is a directory"
  | alreadyExists => "file exists"
  | invalid => "invalid argument"
  | nameTooLong => "file name too long"
  | other t => t

/-- The failure in words. -/
def FileError.message (e : FileError) : String :=
  e.action.text ++ ": " ++ e.cause.text

/-- The file operations. -/
class Storage (m : Type → Type) where
  /-- the content of a file -/
  readFile : String → m (Except FileError String)
  /-- makes a directory and those above it that are missing -/
  makeDirectories : String → m (Except FileError Unit)
  /-- acts while holding the lock with the given path -/
  withLock : {α : Type} → String → m α → m (Except FileError α)
  /-- gives a file a new content -/
  writeFile : String → String → m (Except FileError Unit)
  /-- moves a file to another path, over a file that is there -/
  rename : String → String → m (Except FileError Unit)
  /-- removes a file if it is there -/
  remove : String → m Unit

end ListCalc
