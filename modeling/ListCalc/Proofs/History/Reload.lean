/-
A history is read back.

A history that has been saved on a disk holds the newest lines of what a store has
collected, and no others.  The directories are as the save has left them, so the file can
be read again: loading it does not fail, and a store takes the lines that were kept, in
order, behind those it has.

* `withHistoryLock_apply`, `replaceHistory_apply` — the two parts of a save, step by step;
* `exists_saveHistory_eq` — a save succeeds where no directory stands in its way;
* `Saves.get?`, `Saves.reload` — what stands at the path after a save, and that it is read;
* `LineStore` — a store that keeps one entry for each line;
* `saveHistory_loadHistory` — the text that is kept, and the entries that come back.
-/
import ListCalc.Proofs.Storage.Disk
import ListCalc.Proofs.Text.Lines

namespace ListCalc

variable {α σ : Type} {d d' : Disk} {path text : String} {limit : Nat}

/-! ### Saving step by step -/

theorem withHistoryLock_apply (path : String) (act : StateM Disk (Except HistoryError α))
    (d : Disk) : (withHistoryLock path act) d =
      match d.makeDirectories (Path.parent path) with
      | .error e => (.error (.makingDirectory e), d)
      | .ok d₁ =>
        match d₁.touch (path ++ ".lock") with
        | .error e => (.error (.locking e), d₁)
        | .ok d₂ => act d₂ := by
  simp only [withHistoryLock, bind, StateT.bind, Storage.makeDirectories, Disk.change]
  cases d.makeDirectories (Path.parent path) with
  | error e => rfl
  | ok d₁ =>
    simp only [Storage.withLock, StateT.bind]
    cases d₁.touch (path ++ ".lock") with
    | error e => rfl
    | ok d₂ => rfl

theorem replaceHistory_apply (path text : String) (d : Disk) :
    (replaceHistory path text : StateM Disk _) d =
      match d.writeFile (path ++ ".tmp") text with
      | .error e => (.error (.writing e), d)
      | .ok d₁ =>
        match d₁.rename (path ++ ".tmp") path with
        | .error e => (.error (.replacing path e), d₁.remove (path ++ ".tmp"))
        | .ok d₂ => (.ok (), d₂) := by
  simp only [replaceHistory, bind, StateT.bind, Storage.writeFile, Disk.change]
  cases d.writeFile (path ++ ".tmp") text with
  | error e => rfl
  | ok d₁ =>
    simp only [Storage.rename, Disk.change, StateT.bind]
    cases d₁.rename (path ++ ".tmp") path with
    | error e => rfl
    | ok d₂ => rfl

/-- The steps of a save that succeeds, with the disks between them. -/
structure Saves (path text : String) (d d₁ d₂ d₃ d' : Disk) : Prop where
  make : d.makeDirectories (Path.parent path) = .ok d₁
  lock : d₁.touch (path ++ ".lock") = .ok d₂
  write : d₂.writeFile (path ++ ".tmp") text = .ok d₃
  move : d₃.rename (path ++ ".tmp") path = .ok d'

theorem exists_saves (h : (saveHistory (.ok text) path limit : StateM Disk _) d = (.ok (), d')) :
    ∃ d₁ d₂ d₃, Saves path (newest limit text) d d₁ d₂ d₃ d' := by
  change (withHistoryLock path (replaceHistory path (newest limit text)) : StateM Disk _) d
    = (.ok (), d') at h
  rw [withHistoryLock_apply] at h
  split at h
  · cases h
  · next d₁ hmake =>
    split at h
    · cases h
    · next d₂ hlock =>
      rw [replaceHistory_apply] at h
      split at h
      · cases h
      · next d₃ hwrite =>
        split at h
        · cases h
        · next hmove =>
          cases h
          exact ⟨d₁, d₂, d₃, hmake, hlock, hwrite, hmove⟩

theorem saveHistory_eq_of_saves {d₁ d₂ d₃ : Disk}
    (h : Saves path (newest limit text) d d₁ d₂ d₃ d') :
    (saveHistory (.ok text) path limit : StateM Disk _) d = (.ok (), d') := by
  change (withHistoryLock path (replaceHistory path (newest limit text)) : StateM Disk _) d
    = (.ok (), d')
  rw [withHistoryLock_apply, h.make]
  simp only [h.lock]
  rw [replaceHistory_apply, h.write]
  simp only [h.move]

/-- A save succeeds in a directory that is there, if no directory stands where a file should. -/
theorem exists_saveHistory_eq (hparent : d.IsDirectory (Path.parent path))
    (hlock : d.NamesFile (path ++ ".lock")) (htemporary : d.NamesFile (path ++ ".tmp"))
    (hpath : d.NamesFile path) (text : String) (limit : Nat) :
    ∃ d', (saveHistory (.ok text) path limit : StateM Disk _) d = (.ok (), d') := by
  obtain ⟨lock, hlock, hlockFree⟩ := hlock
  obtain ⟨temporary, htemporary, htemporaryFree⟩ := htemporary
  obtain ⟨target, htarget, htargetFree⟩ := hpath
  have hlocked := Disk.sameDirectories_touched hlockFree
  have hfree : (d.touched lock).get? temporary ≠ some .directory := fun hdirectory =>
    htemporaryFree (hlocked.2.directory temporary hdirectory)
  have hwritten := hlocked.trans (Disk.sameDirectories_put (newest limit text) hfree)
  refine ⟨_, saveHistory_eq_of_saves ⟨Disk.makeDirectories_of_isDirectory hparent,
    Disk.touch_eq hlock hlockFree, Disk.writeFile_eq _ (hlocked.1.locate htemporary) hfree,
    Disk.rename_eq (hwritten.1.locate htemporary) (by rw [Disk.get?_put, if_pos rfl])
      (hwritten.1.locate htarget) fun hdirectory =>
        htargetFree (hwritten.2.directory target hdirectory)⟩⟩

/-! ### After a save -/

/-- The text stands at the path. -/
theorem Saves.get? {d₁ d₂ d₃ : Disk} (h : Saves path text d d₁ d₂ d₃ d') :
    d₂.SameDirectories d' ∧ ∃ place, d'.locate path = .ok place ∧
      d'.get? place = some (.file text) := by
  obtain ⟨temporary, htemporary, hfree, rfl⟩ := Disk.exists_of_writeFile h.write
  have hwritten := Disk.sameDirectories_put text hfree
  obtain ⟨source, target, n, hsource, hn, htarget, hopen, rfl⟩ := Disk.exists_of_rename h.move
  -- The temporary file is still where it was written.
  obtain rfl : temporary = source :=
    Except.ok.inj ((hwritten.1.locate htemporary).symm.trans hsource)
  rw [Disk.get?_put, if_pos rfl] at hn
  obtain rfl := Option.some.inj hn
  have hfile : (d₂.put temporary (.file text)).get? temporary ≠ some .directory := by
    rw [Disk.get?_put, if_pos rfl]
    simp
  have herased := Disk.sameDirectories_erase hfile
  have hopen' : ((d₂.put temporary (.file text)).erase temporary).get? target
      ≠ some .directory := fun hdirectory => hopen (herased.2.directory target hdirectory)
  have hmoved := Disk.sameDirectories_put text hopen'
  have hsame := herased.trans hmoved
  refine ⟨hwritten.trans hsame, target, hsame.1.locate htarget, ?_⟩
  rw [Disk.get?_put, if_pos rfl]

/-- The directory need not be made again, the lock can be taken, and the text is read. -/
theorem Saves.reload {d₁ d₂ d₃ : Disk} (h : Saves path text d d₁ d₂ d₃ d') :
    d'.makeDirectories (Path.parent path) = .ok d' ∧
    ∃ d'', d'.touch (path ++ ".lock") = .ok d'' ∧ d''.readFile path = .ok text := by
  obtain ⟨hsame, place, hplace, htext⟩ := h.get?
  obtain ⟨lock, hlock, hfree, rfl⟩ := Disk.exists_of_touch h.lock
  have htouched := (Disk.sameDirectories_touched hfree).trans hsame
  have hfree' : d'.get? lock ≠ some .directory := fun hdirectory =>
    hfree (htouched.2.directory lock hdirectory)
  refine ⟨Disk.makeDirectories_of_keeps h.make htouched.1, d'.touched lock,
    Disk.touch_eq (htouched.1.locate hlock) hfree', ?_⟩
  exact Disk.readFile_of_get? ((Disk.sameDirectories_touched hfree').1.locate hplace)
    (Disk.get?_touched htext)

theorem loadHistory_apply {absorb : Absorb σ} {store : σ} {content : String} {d₁ d₂ : Disk}
    (hmake : d.makeDirectories (Path.parent path) = .ok d₁)
    (hlock : d₁.touch (path ++ ".lock") = .ok d₂) (hread : d₂.readFile path = .ok content) :
    (loadHistory absorb store path : StateM Disk _) d
      = (((absorb (.ok content) store).1.map (.reading path), (absorb (.ok content) store).2),
        d₂) := by
  simp only [loadHistory, bind, StateT.bind, withHistoryLock_apply, hmake, hlock,
    Storage.readFile, hread]
  rfl

/-! ### Entries -/

/-- A store that writes each entry with a line feed behind it, and reads one entry from each line,
without the end of the line. -/
structure LineStore (σ : Type) where
  entries : σ → List String
  written : σ → String
  absorb : Absorb σ
  written_eq : ∀ s, written s = Text.ofLines (entries s)
  absorb_eq : ∀ s content, (∀ c ∈ content.toList.getLast?, c = '\n') →
    (absorb (.ok content) s).1 = none ∧
      entries (absorb (.ok content) s).2 = entries s ++ Text.lines content

/-- A store that is just its entries. -/
def LineStore.list : LineStore (List String) where
  entries := id
  written := Text.ofLines
  absorb
    | .ok content, s => (none, s ++ Text.lines content)
    | .error e, s => (some e.message, s)
  written_eq _ := rfl
  absorb_eq _ _ _ := ⟨rfl, rfl⟩

/-- **A history is read back.**  A save that succeeds leaves the longest text at the end of what was
collected that has no more lines than the limit.  If these are the entries of a store, one for each
line, loading the file succeeds, and puts the last of the entries, up to the limit, behind those
that are there. -/
theorem saveHistory_loadHistory
    (h : (saveHistory (.ok text) path limit : StateM Disk _) d = (.ok (), d')) :
    (∃ kept, d'.readFile path = .ok kept ∧ Text.Newest limit text.toList kept.toList) ∧
    ∀ (σ : Type) (store : LineStore σ) (source target : σ), text = store.written source →
      (∀ e ∈ store.entries source, '\n' ∉ e.toList ∧ e.toList.getLast? ≠ some '\r') →
      ∃ target' d'', (loadHistory store.absorb target path : StateM Disk _) d'
          = ((none, target'), d'') ∧
        store.entries target' = store.entries target
          ++ (store.entries source).drop ((store.entries source).length - limit) := by
  obtain ⟨d₁, d₂, d₃, hsaves⟩ := exists_saves h
  obtain ⟨-, place, hplace, htext⟩ := hsaves.get?
  refine ⟨⟨_, Disk.readFile_of_get? hplace htext, Text.newest_spec limit text⟩, ?_⟩
  rintro σ store source target rfl hentries
  obtain ⟨hmake, d'', hlock, hread⟩ := hsaves.reload
  have hfeed : ∀ e ∈ store.entries source, '\n' ∉ e.toList := fun e he => (hentries e he).1
  rw [store.written_eq, Text.newest_ofLines hfeed] at hread
  have hkept {e : String} (he : e ∈ (store.entries source).drop
      ((store.entries source).length - limit)) := hentries e (List.mem_of_mem_drop he)
  obtain ⟨haccepted, htaken⟩ := store.absorb_eq target _ (Text.eq_newline_of_getLast?_ofLines
    ((store.entries source).drop ((store.entries source).length - limit)))
  rw [Text.lines_ofLines (fun e he => (hkept he).1) fun e he => (hkept he).2] at htaken
  refine ⟨_, d'', ?_, htaken⟩
  rw [loadHistory_apply hmake hlock hread, haccepted]
  rfl

/-- Of three entries the last two are kept, one of which is empty. -/
theorem saveHistory_loadHistory_three : ∃ d d',
    (saveHistory (.ok "a\n\nb\n") "h" (2 : Nat) : StateM Disk _) .fresh = (.ok (), d) ∧
    (loadHistory LineStore.list.absorb ["x"] "h" : StateM Disk _) d
      = ((none, ["x", "", "b"]), d') := by
  have hnames (path : String) (h : Disk.fresh.locate path = .ok ["home", path]) :
      Disk.fresh.NamesFile path := by
    refine ⟨_, h, ?_⟩
    simp [Disk.get?, Disk.fresh, lookup_cons]
  have hparent : Disk.fresh.IsDirectory (Path.parent "h") := by
    rw [show Path.parent "h" = "." by decide +kernel]
    exact ⟨["home"], by rfl, by decide⟩
  have hlock : Disk.fresh.NamesFile ("h" ++ ".lock") := hnames _ (by rfl)
  have htemporary : Disk.fresh.NamesFile ("h" ++ ".tmp") := hnames _ (by rfl)
  have hpath : Disk.fresh.NamesFile "h" := hnames _ (by rfl)
  obtain ⟨d, hsave⟩ := exists_saveHistory_eq hparent hlock htemporary hpath "a\n\nb\n" 2
  obtain ⟨target', d', hload, hentries⟩ := (saveHistory_loadHistory hsave).2 _ LineStore.list
    ["a", "", "b"] ["x"] (by decide) (by decide)
  refine ⟨d, d', hsave, hload.trans ?_⟩
  rw [show target' = ["x", "", "b"] from hentries]

end ListCalc
