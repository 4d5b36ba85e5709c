/-
A disk in memory.

A disk maps places to files and directories.  A place is the list of names that
lead to it from the root.  A path is followed part by part, and every part but
the last must be a directory.
-/
import ListCalc.Path
import ListCalc.Storage

namespace ListCalc

/-- What stands at a place. -/
inductive Disk.Node where
  | directory
  | file (content : String)
  deriving DecidableEq

/-- Files and directories by place, and the directory that relative paths start at. -/
structure Disk where
  nodes : List (List String × Disk.Node)
  home : List String

namespace Disk

/-- A disk with nothing but an empty home directory. -/
def fresh : Disk :=
  ⟨[([], .directory), (["home"], .directory)], ["home"]⟩

/-- What stands at a place. -/
def get? (d : Disk) (place : List String) : Option Node :=
  d.nodes.lookup place

/-- The disk with something else at a place. -/
def put (d : Disk) (place : List String) (n : Node) : Disk :=
  { d with nodes := (place, n) :: d.nodes.filter (·.1 != place) }

/-- The disk with nothing at a place. -/
def erase (d : Disk) (place : List String) : Disk :=
  { d with nodes := d.nodes.filter (·.1 != place) }

/-- How many bytes a name may have. -/
def longestName : Nat := 255

/-- How many bytes a path may have. -/
def longestPath : Nat := 4095

/-- Follows parts from a place; the last one need not exist. -/
def follow (d : Disk) : List String → List String → Except FileError.Cause (List String)
  | place, [] => .ok place
  | place, part :: rest =>
    match d.get? place with
    | none => .error .missing
    | some (.file _) => .error .notDirectory
    | some .directory =>
      if part = "." then d.follow place rest
      else if part = ".." then d.follow place.dropLast rest
      else if longestName < part.utf8ByteSize then .error .nameTooLong
      else d.follow (place ++ [part]) rest

/-- The parts of a path to follow; a slash at the end asks for a directory. -/
def partsOf (path : String) : List String :=
  let parts := (Path.parts path).filter (· != "")
  if path.toList.getLast? = some '/' then parts ++ ["."] else parts

/-- The place that a path names. -/
def locate (d : Disk) (path : String) : Except FileError.Cause (List String) :=
  if path = "" then .error .missing
  else if path.toList.contains '\x00' then .error .invalid
  else if longestPath < path.utf8ByteSize then .error .nameTooLong
  else d.follow (if Path.isAbsolute path then [] else d.home) (partsOf path)

/-- What a path names. -/
def find (d : Disk) (path : String) : Except FileError.Cause Node := do
  match d.get? (← d.locate path) with
  | some n => return n
  | none => throw .missing

/-! ### Operations -/

/-- The content of a file. -/
def readFile (d : Disk) (path : String) : Except FileError String :=
  match d.find path with
  | .ok (.file content) => .ok content
  | .ok .directory => .error ⟨.reading path, .isDirectory⟩
  | .error c => .error ⟨.opening path, c⟩

/-- The place of a file to be written: it must not be a directory, and the directory that holds it
must exist. -/
def locateFile (d : Disk) (path : String) : Except FileError (List String) :=
  match d.locate path with
  | .error c => .error ⟨.opening path, c⟩
  | .ok place =>
    if d.get? place = some .directory then .error ⟨.opening path, .isDirectory⟩ else .ok place

/-- Gives a file a new content. -/
def writeFile (d : Disk) (path content : String) : Except FileError Disk :=
  (d.locateFile path).map fun place => d.put place (.file content)

/-- Makes a file with no content if there is none. -/
def touch (d : Disk) (path : String) : Except FileError Disk :=
  (d.locateFile path).map fun place =>
    match d.get? place with
    | some _ => d
    | none => d.put place (.file "")

/-- Makes the last directory of a path. -/
def makeDirectory (d : Disk) (path : String) : Except FileError Disk :=
  match d.locate path with
  | .error c => .error ⟨.makingDirectory path, c⟩
  | .ok place =>
    match d.get? place with
    | some .directory => .ok d
    | some (.file _) => .error ⟨.makingDirectory path, .notDirectory⟩
    | none => .ok (d.put place .directory)

/-- The path and the paths of all directories above it, the path itself last. -/
def chain (path : String) : List String :=
  let parts := (Path.parts path).filter (· != "")
  let front := if Path.isAbsolute path then "/" else ""
  (List.range parts.length).map fun n => front ++ "/".intercalate (parts.take (n + 1))

/-- Makes a directory and those above it that are missing. -/
def makeDirectories (d : Disk) (path : String) : Except FileError Disk :=
  match d.find path with
  | .ok .directory => .ok d
  | _ => (chain path).foldlM makeDirectory d

/-- Moves a file to another path.  A directory is never replaced. -/
def rename (d : Disk) (source target : String) : Except FileError Disk :=
  let fail (c : FileError.Cause) : Except FileError Disk := .error ⟨.moving source target, c⟩
  match d.locate source with
  | .error c => fail c
  | .ok src =>
    match d.get? src with
    | none => fail .missing
    | some n =>
      match d.locate target with
      | .error c => fail c
      | .ok dst =>
        if d.get? dst = some .directory then fail .alreadyExists
        else .ok ((d.erase src).put dst n)

/-- Removes a file if it is there. -/
def remove (d : Disk) (path : String) : Disk :=
  match d.locate path with
  | .error _ => d
  | .ok place =>
    match d.get? place with
    | some (.file _) => d.erase place
    | _ => d

/-- The files below the home directory by relative path. -/
def filesAtHome (d : Disk) : List (String × String) :=
  d.nodes.filterMap fun (place, n) =>
    match n with
    | .directory => none
    | .file content =>
      if d.home.isPrefixOf place then
        some ("/".intercalate (place.drop d.home.length), content)
      else none

/-- Carries out an operation that changes the disk unless it fails. -/
def change (f : Disk → Except FileError Disk) : StateM Disk (Except FileError Unit) := fun d =>
  match f d with
  | .ok d' => (.ok (), d')
  | .error e => (.error e, d)

instance : Storage (StateM Disk) where
  readFile path := fun d => (d.readFile path, d)
  makeDirectories path := change (·.makeDirectories path)
  withLock path act := fun d =>
    match d.touch path with
    | .error e => (.error e, d)
    | .ok d' =>
      let (a, d'') := act d'
      (.ok a, d'')
  writeFile path content := change (·.writeFile path content)
  rename source target := change (·.rename source target)
  remove path := fun d => ((), d.remove path)

end Disk

end ListCalc
