/-
Directories that stay.

A path is followed through directories, so what it names stays the same as long as the
directories do.  `KeepsDirectories d e` says that `e` has all directories of `d`: then a
path that names a place on `d` names it on `e` (`KeepsDirectories.locate`), and
directories that have been made on `d` need not be made on `e`
(`makeDirectories_of_keeps`).

Files are written, moved and locked at places that are no directories.  So these
operations leave the directories as they are, which is `SameDirectories`:

* `exists_of_touch`, `exists_of_writeFile`, `exists_of_rename` — what each of them does if
  it succeeds;
* `readFile_of_get?` — what is read at a path that names a file.
-/
import ListCalc.Proofs.Lookup
import ListCalc.Storage.Disk

namespace ListCalc.Disk

variable {d e d₁ : Disk} {path : String}

@[simp] theorem home_put (d : Disk) (place : List String) (n : Node) :
    (d.put place n).home = d.home := rfl

@[simp] theorem home_erase (d : Disk) (place : List String) : (d.erase place).home = d.home := rfl

theorem get?_erase (d : Disk) (place q : List String) :
    (d.erase place).get? q = if q = place then none else d.get? q := by
  rw [get?, erase, lookup_filter _ fun key => key != place]
  by_cases h : q = place <;> simp [h, get?]

theorem get?_put (d : Disk) (place q : List String) (n : Node) :
    (d.put place n).get? q = if q = place then some n else d.get? q := by
  rw [get?, put, lookup_cons]
  split
  · rfl
  · next h =>
    have herase := get?_erase d place q
    rw [if_neg h] at herase
    exact herase

/-! ### Following paths -/

/-- All directories of `d` are directories of `e`. -/
structure KeepsDirectories (d e : Disk) : Prop where
  home : e.home = d.home
  directory : ∀ place, d.get? place = some .directory → e.get? place = some .directory

theorem keepsDirectories_refl (d : Disk) : d.KeepsDirectories d := ⟨rfl, fun _ h => h⟩

theorem KeepsDirectories.trans (h : d.KeepsDirectories d₁) (h' : d₁.KeepsDirectories e) :
    d.KeepsDirectories e :=
  ⟨h'.home.trans h.home, fun place hplace => h'.directory place (h.directory place hplace)⟩

/-- Something is put where no directory stands. -/
theorem keepsDirectories_put {place : List String} (n : Node)
    (h : d.get? place ≠ some .directory) : d.KeepsDirectories (d.put place n) := by
  refine ⟨rfl, fun q hq => ?_⟩
  rw [get?_put, if_neg, hq]
  rintro rfl
  exact h hq

theorem KeepsDirectories.follow (h : d.KeepsDirectories e) {place q : List String}
    {parts : List String} (hfollow : d.follow place parts = .ok q) :
    e.follow place parts = .ok q := by
  induction parts generalizing place with
  | nil => exact hfollow
  | cons part rest ih =>
    rw [Disk.follow] at hfollow
    split at hfollow
    · cases hfollow
    · cases hfollow
    · next hplace =>
      rw [Disk.follow, h.directory place hplace]
      split at hfollow
      · next hdot => simpa only [if_pos hdot] using ih hfollow
      · next hdot =>
        split at hfollow
        · next hdots => simpa only [if_neg hdot, if_pos hdots] using ih hfollow
        · next hdots =>
          split at hfollow
          · cases hfollow
          · next hlong =>
            simpa only [if_neg hdot, if_neg hdots, if_neg hlong] using ih hfollow

/-- A path goes on naming a place. -/
theorem KeepsDirectories.locate (h : d.KeepsDirectories e) {place : List String}
    (hlocate : d.locate path = .ok place) : e.locate path = .ok place := by
  rw [Disk.locate] at hlocate ⊢
  split at hlocate
  · cases hlocate
  · next hempty =>
    rw [if_neg hempty]
    split at hlocate
    · cases hlocate
    · next hzero =>
      rw [if_neg hzero]
      split at hlocate
      · cases hlocate
      · next hlong =>
        rw [if_neg hlong, h.home]
        exact h.follow hlocate

/-! ### Making directories -/

/-- The path names a directory. -/
def IsDirectory (d : Disk) (path : String) : Prop :=
  ∃ place, d.locate path = .ok place ∧ d.get? place = some .directory

theorem KeepsDirectories.isDirectory (h : d.KeepsDirectories e) (hpath : d.IsDirectory path) :
    e.IsDirectory path := by
  obtain ⟨place, hlocate, hplace⟩ := hpath
  exact ⟨place, h.locate hlocate, h.directory place hplace⟩

theorem find_eq_directory_iff : d.find path = .ok .directory ↔ d.IsDirectory path := by
  rw [find, IsDirectory]
  cases hlocate : d.locate path with
  | error c => simp [bind, Except.bind]
  | ok place =>
    cases hget : d.get? place with
    | none => simp [bind, Except.bind, hget, throw, throwThe, MonadExceptOf.throw]
    | some n => simp [bind, Except.bind, hget, pure, Except.pure]

/-- A directory that is there need not be made. -/
theorem makeDirectory_of_isDirectory (h : d.IsDirectory path) : d.makeDirectory path = .ok d := by
  obtain ⟨place, hlocate, hplace⟩ := h
  rw [makeDirectory, hlocate]
  simp only [hplace]

theorem keepsDirectories_of_makeDirectory (h : d.makeDirectory path = .ok e) :
    d.KeepsDirectories e ∧ e.IsDirectory path := by
  rw [makeDirectory] at h
  split at h
  · cases h
  · next place hlocate =>
    split at h
    · next hplace =>
      obtain rfl := Except.ok.inj h
      exact ⟨keepsDirectories_refl d, place, hlocate, hplace⟩
    · cases h
    · next hplace =>
      obtain rfl := Except.ok.inj h
      have hfree : d.get? place ≠ some .directory := by simp [hplace]
      have hkeeps := keepsDirectories_put .directory hfree
      exact ⟨hkeeps, place, hkeeps.locate hlocate, by rw [get?_put, if_pos rfl]⟩

theorem makeDirectories_of_isDirectory (h : d.IsDirectory path) :
    d.makeDirectories path = .ok d := by
  rw [makeDirectories, find_eq_directory_iff.mpr h]

theorem keepsDirectories_of_foldlM {paths : List String}
    (h : paths.foldlM makeDirectory d = .ok e) :
    d.KeepsDirectories e ∧ ∀ p ∈ paths, e.IsDirectory p := by
  induction paths generalizing d with
  | nil =>
    obtain rfl := Except.ok.inj h
    exact ⟨keepsDirectories_refl d, by simp⟩
  | cons p paths ih =>
    rw [List.foldlM_cons] at h
    cases hmake : d.makeDirectory p with
    | error c =>
      rw [hmake] at h
      cases h
    | ok d₁ =>
      rw [hmake] at h
      obtain ⟨hfirst, hp⟩ := keepsDirectories_of_makeDirectory hmake
      obtain ⟨hrest, hpaths⟩ := ih h
      exact ⟨hfirst.trans hrest, List.forall_mem_cons.mpr ⟨hrest.isDirectory hp, hpaths⟩⟩

theorem foldlM_makeDirectory {paths : List String} (h : ∀ p ∈ paths, d.IsDirectory p) :
    paths.foldlM makeDirectory d = .ok d := by
  induction paths with
  | nil => rfl
  | cons p paths ih =>
    obtain ⟨hp, hpaths⟩ := List.forall_mem_cons.mp h
    rw [List.foldlM_cons, makeDirectory_of_isDirectory hp]
    exact ih hpaths

/-- Directories that have been made need not be made again. -/
theorem makeDirectories_of_keeps (h : d.makeDirectories path = .ok d₁)
    (hkeeps : d₁.KeepsDirectories e) : e.makeDirectories path = .ok e := by
  have hthere : e.IsDirectory path ∨ ∀ p ∈ chain path, e.IsDirectory p := by
    rw [makeDirectories] at h
    split at h
    · next hfind =>
      obtain rfl := Except.ok.inj h
      exact .inl (hkeeps.isDirectory (find_eq_directory_iff.mp hfind))
    · exact .inr fun p hp => hkeeps.isDirectory ((keepsDirectories_of_foldlM h).2 p hp)
  rw [makeDirectories]
  split
  · rfl
  · next hfind =>
    rcases hthere with hpath | hchain
    · exact absurd (find_eq_directory_iff.mpr hpath) hfind
    · exact foldlM_makeDirectory hchain

/-! ### Files -/

/-- Both have the same directories. -/
def SameDirectories (d e : Disk) : Prop := d.KeepsDirectories e ∧ e.KeepsDirectories d

theorem SameDirectories.trans (h : d.SameDirectories d₁) (h' : d₁.SameDirectories e) :
    d.SameDirectories e :=
  ⟨h.1.trans h'.1, h'.2.trans h.2⟩

/-- A file is put where no directory stands. -/
theorem sameDirectories_put {place : List String} (content : String)
    (h : d.get? place ≠ some .directory) : d.SameDirectories (d.put place (.file content)) := by
  refine ⟨keepsDirectories_put _ h, rfl, fun q hq => ?_⟩
  rw [get?_put] at hq
  split at hq
  · cases hq
  · exact hq

/-- A file is taken away. -/
theorem sameDirectories_erase {place : List String} (h : d.get? place ≠ some .directory) :
    d.SameDirectories (d.erase place) := by
  refine ⟨⟨rfl, fun q hq => ?_⟩, rfl, fun q hq => ?_⟩
  · rw [get?_erase, if_neg, hq]
    rintro rfl
    exact h hq
  · rw [get?_erase] at hq
    split at hq
    · cases hq
    · exact hq

/-- A path at which a file stands or could be made. -/
def NamesFile (d : Disk) (path : String) : Prop :=
  ∃ place, d.locate path = .ok place ∧ d.get? place ≠ some .directory

theorem exists_of_locateFile {place : List String} (h : d.locateFile path = .ok place) :
    d.locate path = .ok place ∧ d.get? place ≠ some .directory := by
  rw [locateFile] at h
  split at h
  · cases h
  · next hlocate =>
    split at h
    · cases h
    · next hplace =>
      obtain rfl := Except.ok.inj h
      exact ⟨hlocate, hplace⟩

theorem locateFile_eq {place : List String} (h : d.locate path = .ok place)
    (hplace : d.get? place ≠ some .directory) : d.locateFile path = .ok place := by
  rw [locateFile, h]
  exact if_neg hplace

/-- Writing puts the content at a place that is no directory. -/
theorem exists_of_writeFile {content : String} (h : d.writeFile path content = .ok e) :
    ∃ place, d.locate path = .ok place ∧ d.get? place ≠ some .directory ∧
      e = d.put place (.file content) := by
  rw [writeFile] at h
  cases hplace : d.locateFile path with
  | error c =>
    rw [hplace] at h
    cases h
  | ok place =>
    rw [hplace] at h
    obtain rfl := Except.ok.inj h
    obtain ⟨hlocate, hfree⟩ := exists_of_locateFile hplace
    exact ⟨place, hlocate, hfree, rfl⟩

theorem writeFile_eq {place : List String} (content : String) (h : d.locate path = .ok place)
    (hplace : d.get? place ≠ some .directory) :
    d.writeFile path content = .ok (d.put place (.file content)) := by
  rw [writeFile, locateFile_eq h hplace]
  rfl

/-- Moving puts what stands at one place at another one, which is no directory. -/
theorem exists_of_rename {source target : String} (h : d.rename source target = .ok e) :
    ∃ src dst n, d.locate source = .ok src ∧ d.get? src = some n ∧ d.locate target = .ok dst ∧
      d.get? dst ≠ some .directory ∧ e = (d.erase src).put dst n := by
  simp only [rename] at h
  split at h
  · cases h
  · next src hsrc =>
    split at h
    · cases h
    · next n hn =>
      split at h
      · cases h
      · next dst hdst =>
        split at h
        · cases h
        · next hfree =>
          exact ⟨src, dst, n, hsrc, hn, hdst, hfree, (Except.ok.inj h).symm⟩

theorem rename_eq {source target : String} {src dst : List String} {n : Node}
    (hsource : d.locate source = .ok src) (hn : d.get? src = some n)
    (htarget : d.locate target = .ok dst) (hdst : d.get? dst ≠ some .directory) :
    d.rename source target = .ok ((d.erase src).put dst n) := by
  simp only [rename, hsource, hn, htarget]
  exact if_neg hdst

/-- The disk with an empty file at a place where nothing stands. -/
def touched (d : Disk) (place : List String) : Disk :=
  match d.get? place with
  | some _ => d
  | none => d.put place (.file "")

theorem exists_of_touch (h : d.touch path = .ok e) :
    ∃ place, d.locate path = .ok place ∧ d.get? place ≠ some .directory ∧
      e = d.touched place := by
  rw [touch] at h
  cases hplace : d.locateFile path with
  | error c =>
    rw [hplace] at h
    cases h
  | ok place =>
    rw [hplace] at h
    obtain ⟨hlocate, hfree⟩ := exists_of_locateFile hplace
    exact ⟨place, hlocate, hfree, (Except.ok.inj h).symm⟩

theorem sameDirectories_touched {place : List String} (h : d.get? place ≠ some .directory) :
    d.SameDirectories (d.touched place) := by
  rw [touched]
  split
  · exact ⟨keepsDirectories_refl d, keepsDirectories_refl d⟩
  · exact sameDirectories_put "" h

theorem touch_eq {place : List String} (h : d.locate path = .ok place)
    (hplace : d.get? place ≠ some .directory) : d.touch path = .ok (d.touched place) := by
  rw [touch, locateFile_eq h hplace]
  rfl

/-- What stands somewhere is not touched. -/
theorem get?_touched {place q : List String} {n : Node} (h : d.get? q = some n) :
    (d.touched place).get? q = some n := by
  rw [touched]
  split
  · exact h
  · next hnone =>
    rw [get?_put, if_neg, h]
    rintro rfl
    rw [hnone] at h
    cases h

theorem readFile_of_get? {place : List String} {content : String}
    (h : d.locate path = .ok place) (hplace : d.get? place = some (.file content)) :
    d.readFile path = .ok content := by
  have hfind : d.find path = .ok (.file content) := by
    rw [find, h]
    simp [bind, Except.bind, hplace, pure, Except.pure]
  rw [readFile, hfind]

end ListCalc.Disk
