/-
Scopes that grow.

While statements run in a frame, the scope only grows: names that were free get
bound, each is recorded in the innermost frame, and of the bound names only such
new ones are ever given another meaning.  `Extends s t` says that `t` has come out
of `s` in this way:

* `extends_put` — binding a name extends the scope;
* `extends_set` — so does giving a new meaning to a name that is itself new;
* `Extends.keptBy` — the names that were bound keep their meanings;
* `pop_of_extends_push` — closing a frame around any such growth gives back the
  scope that stood before the frame was opened, entry by entry and frame by frame.

`Records s names t` says besides which names have come with the growth, in the
order in which the innermost frame records them.

Growing or not, the frames of a scope record its names, and each of them once:
`Tallies` holds of the empty scope, and every operation keeps it.
-/
import ListCalc.Scope

namespace ListCalc

namespace Scope

variable {α : Type} {s t u : Scope α}

theorem has_eq_true_iff (s : Scope α) (name : String) :
    s.has name = true ↔ ∃ e ∈ s.entries, e.1 = name := by
  rw [has, get?, List.lookup_isSome_iff]
  constructor
  · rintro ⟨e, he, hk⟩
    exact ⟨e, he, (eq_of_beq hk).symm⟩
  · rintro ⟨e, he, rfl⟩
    exact ⟨e, he, beq_self_eq_true _⟩

theorem has_eq_false_iff (s : Scope α) (name : String) :
    s.has name = false ↔ ∀ e ∈ s.entries, e.1 ≠ name := by
  rw [← Bool.not_eq_true, has_eq_true_iff]
  constructor
  · intro h e he hk
    exact h ⟨e, he, hk⟩
  · rintro h ⟨e, he, hk⟩
    exact h e he hk

@[simp] theorem has_push (kind : FrameKind) (s : Scope α) (name : String) :
    (s.push kind).has name = s.has name := rfl

/-- The scope with some entries on top, newest first, that the innermost frame records. -/
def grow (added : List (String × α)) (s : Scope α) : Scope α :=
  ⟨added ++ s.entries,
    match s.frames with
    | [] => []
    | top :: rest => { top with names := top.names ++ (added.map Prod.fst).reverse } :: rest⟩

@[simp] theorem grow_nil (s : Scope α) : s.grow [] = s := by
  obtain ⟨entries, _ | ⟨top, rest⟩⟩ := s <;> simp [grow]

theorem grow_grow (added more : List (String × α)) (s : Scope α) :
    (s.grow added).grow more = s.grow (more ++ added) := by
  obtain ⟨entries, _ | ⟨top, rest⟩⟩ := s <;> simp [grow]

/-! ### What the operations do -/

/-- Binding a name changes nothing if the name is bound, and adds one entry otherwise. -/
theorem put_cases {name : String} {a : α} {b : Bool} (h : s.put name a = .ok (b, t)) :
    (s.has name = true ∧ t = s) ∨
    (s.has name = false ∧ s.frames ≠ [] ∧ t = s.grow [(name, a)]) := by
  rw [put] at h
  split at h
  · next hbound =>
    obtain ⟨-, rfl⟩ := Prod.mk.inj (Except.ok.inj h)
    exact .inl ⟨hbound, rfl⟩
  · next hfree =>
    split at h
    · cases h
    · next top rest hframes =>
      obtain ⟨-, rfl⟩ := Prod.mk.inj (Except.ok.inj h)
      exact .inr ⟨Bool.not_eq_true _ ▸ hfree, by simp [hframes], by simp [grow, hframes]⟩

theorem eq_of_set {name : String} {a : α} (h : s.set name a = .ok t) :
    t = { s with entries := s.entries.map fun e => if e.1 == name then (name, a) else e } := by
  rw [set] at h
  split at h
  · exact (Except.ok.inj h).symm
  · cases h

theorem exists_frame_of_pop {names : List String} (h : s.pop = .ok (names, t)) :
    ∃ kind rest, s.frames = ⟨kind, names⟩ :: rest ∧
      t = ⟨s.entries.filter fun e => !names.contains e.1, rest⟩ := by
  rw [pop] at h
  split at h
  · cases h
  · next top rest hframes =>
    obtain ⟨rfl, rfl⟩ := Prod.mk.inj (Except.ok.inj h)
    exact ⟨top.kind, rest, hframes, rfl⟩

/-- An entry keeps its name when its meaning is replaced. -/
theorem fst_replace (name : String) (a : α) (e : String × α) :
    (if e.1 == name then (name, a) else e).1 = e.1 := by
  by_cases he : e.1 = name <;> simp [he]

theorem map_fst_replace (name : String) (a : α) (entries : List (String × α)) :
    (entries.map fun e => if e.1 == name then (name, a) else e).map Prod.fst
      = entries.map Prod.fst := by
  rw [List.map_map]
  exact List.map_congr_left fun e _ => fst_replace name a e

/-- Entries are passed over if none of them has the name. -/
theorem map_replace_of_free {name : String} (a : α) (hfree : s.has name = false) :
    (s.entries.map fun e => if e.1 == name then (name, a) else e) = s.entries := by
  rw [has_eq_false_iff] at hfree
  refine (List.map_congr_left fun e he => ?_).trans (List.map_id _)
  rw [if_neg (by simpa using hfree e he), id]

/-! ### Growth -/

/-- `t` is `s` with some names bound in the innermost frame that were free in `s`. -/
def Extends (s t : Scope α) : Prop :=
  ∃ added : List (String × α), (∀ e ∈ added, s.has e.1 = false) ∧ t = s.grow added

theorem extends_refl (s : Scope α) : Extends s s :=
  ⟨[], by simp, (grow_nil s).symm⟩

/-- A name that is free after some growth was free before. -/
theorem Extends.has_eq_false (h : Extends s t) {name : String} (hn : t.has name = false) :
    s.has name = false := by
  obtain ⟨added, -, rfl⟩ := h
  rw [has_eq_false_iff] at hn ⊢
  intro e he
  exact hn e (List.mem_append_right _ he)

theorem Extends.trans (h : Extends s t) (h' : Extends t u) : Extends s u := by
  obtain ⟨more, hmore, rfl⟩ := h'
  -- What is free after the first growth was free before it.
  have hfree : ∀ e ∈ more, s.has e.1 = false := fun e he => h.has_eq_false (hmore e he)
  obtain ⟨added, hadded, rfl⟩ := h
  refine ⟨more ++ added, fun e he => ?_, grow_grow added more s⟩
  rcases List.mem_append.mp he with he | he
  · exact hfree e he
  · exact hadded e he

/-- Binding a name extends the scope, whether or not the name was free. -/
theorem extends_put {name : String} {a : α} {b : Bool} (h : s.put name a = .ok (b, t)) :
    Extends s t := by
  rcases put_cases h with ⟨-, rfl⟩ | ⟨hfree, -, rfl⟩
  · exact extends_refl t
  · exact ⟨[(name, a)], List.forall_mem_singleton.mpr hfree, rfl⟩

/-- Giving a new meaning to a name that has come with the growth changes nothing below it. -/
theorem extends_set {name : String} {a : α} (h : Extends s t) (hfree : s.has name = false)
    (hset : t.set name a = .ok u) : Extends s u := by
  obtain ⟨added, hadded, rfl⟩ := h
  obtain rfl := eq_of_set hset
  have hbelow := map_replace_of_free a hfree
  refine ⟨added.map fun e => if e.1 == name then (name, a) else e, fun e he => ?_, ?_⟩
  · obtain ⟨e', he', rfl⟩ := List.mem_map.mp he
    rw [fst_replace]
    exact hadded e' he'
  · simp only [grow, List.map_append, hbelow, map_fst_replace]

/-- Every name of `s` means in `t` what it means in `s`. -/
def KeptBy (s t : Scope α) : Prop :=
  ∀ name a, s.get? name = some a → t.get? name = some a

theorem keptBy_refl (s : Scope α) : s.KeptBy s :=
  fun _ _ h => h

theorem KeptBy.trans (h : s.KeptBy t) (h' : t.KeptBy u) : s.KeptBy u :=
  fun name a ha => h' name a (h name a ha)

/-- A name that is bound keeps its meaning while the scope grows. -/
theorem Extends.keptBy (h : Extends s t) : s.KeptBy t := by
  obtain ⟨added, hadded, rfl⟩ := h
  intro name a ha
  have hnew : added.lookup name = none := by
    rw [List.lookup_eq_none_iff]
    intro e he
    rw [bne_iff_ne]
    rintro rfl
    have hbound : s.has e.1 = true := by rw [has, ha]; rfl
    exact Bool.noConfusion (hbound.symm.trans (hadded e he))
  show (added ++ s.entries).lookup name = some a
  rw [List.lookup_append, hnew]
  exact ha

/-- Closing a frame undoes whatever growth there was since it was opened. -/
theorem pop_of_extends_push {kind : FrameKind} (h : Extends (s.push kind) t) :
    ∃ names, t.pop = .ok (names, s) := by
  obtain ⟨added, hadded, rfl⟩ := h
  refine ⟨(added.map Prod.fst).reverse, ?_⟩
  -- The frame records the names that came with the growth, and these only.
  have hnew : added.filter (fun e => !(added.map Prod.fst).reverse.contains e.1) = [] := by
    rw [List.filter_eq_nil_iff]
    intro e he
    simp only [Bool.not_eq_true, Bool.not_eq_false', List.contains_iff_mem, List.mem_reverse]
    exact List.mem_map_of_mem he
  -- A name that is bound below would not have been new.
  have hold : s.entries.filter (fun e => !(added.map Prod.fst).reverse.contains e.1)
      = s.entries := by
    rw [List.filter_eq_self]
    intro e he
    simp only [Bool.not_eq_true', ← Bool.not_eq_true, List.contains_iff_mem, List.mem_reverse]
    intro hmem
    obtain ⟨e', he', hkey⟩ := List.mem_map.mp hmem
    have hfree := (has_eq_false_iff s e'.1).mp (by simpa using hadded e' he')
    exact hfree e he hkey.symm
  simp only [pop, grow, push, List.nil_append, List.filter_append, hnew, hold]

/-! ### The names that come with growth -/

variable {names more : List String}

/-- `t` is `s` with the given names bound, in this order, in the innermost frame; all of them were
free in `s`. -/
def Records (s : Scope α) (names : List String) (t : Scope α) : Prop :=
  ∃ added : List (String × α), (∀ e ∈ added, s.has e.1 = false) ∧ t = s.grow added ∧
    names = (added.map Prod.fst).reverse

theorem records_refl (s : Scope α) : s.Records [] s :=
  ⟨[], by simp, (grow_nil s).symm, rfl⟩

theorem Records.extends (h : s.Records names t) : s.Extends t := by
  obtain ⟨added, hadded, ht, -⟩ := h
  exact ⟨added, hadded, ht⟩

theorem Records.trans (h : s.Records names t) (h' : t.Records more u) :
    s.Records (names ++ more) u := by
  obtain ⟨later, hlater, rfl, rfl⟩ := h'
  have hfree : ∀ e ∈ later, s.has e.1 = false := fun e he =>
    h.extends.has_eq_false (hlater e he)
  obtain ⟨added, hadded, rfl, rfl⟩ := h
  refine ⟨later ++ added, List.forall_mem_append.mpr ⟨hfree, hadded⟩, grow_grow added later s, ?_⟩
  simp

theorem records_put {name : String} {a : α} {b : Bool} (hfree : s.has name = false)
    (h : s.put name a = .ok (b, t)) : s.Records [name] t := by
  rcases put_cases h with ⟨hbound, -⟩ | ⟨-, -, rfl⟩
  · exact Bool.noConfusion (hbound.symm.trans hfree)
  · exact ⟨[(name, a)], List.forall_mem_singleton.mpr hfree, rfl, rfl⟩

theorem Records.get?_of_some (h : s.Records names t) {name : String} {a : α}
    (ha : s.get? name = some a) : t.get? name = some a :=
  h.extends.keptBy name a ha

/-- The names that come with the growth are the ones that are bound in addition. -/
theorem Records.has_iff (h : s.Records names t) (name : String) :
    t.has name = true ↔ s.has name = true ∨ name ∈ names := by
  obtain ⟨added, -, rfl, rfl⟩ := h
  simp only [has_eq_true_iff, grow, List.mem_append, List.mem_reverse, List.mem_map, or_and_right,
    exists_or]
  exact or_comm

/-- The innermost frame records the names, and the others stay as they are. -/
theorem Records.frames_eq (h : s.Records names t) {top : Frame} {rest : List Frame}
    (hs : s.frames = top :: rest) :
    t.frames = { top with names := top.names ++ names } :: rest := by
  obtain ⟨added, -, rfl, rfl⟩ := h
  simp [grow, hs]

/-! ### Frames and entries -/

/-- The frames record the names that are bound, and each of them once.  Entries are newest first,
and so are frames, but the names of a frame are in order. -/
structure Tallies (s : Scope α) : Prop where
  keys : s.entries.map Prod.fst = s.frames.flatMap fun frame => frame.names.reverse
  nodup : (s.entries.map Prod.fst).Nodup

theorem tallies_empty : (empty : Scope α).Tallies :=
  ⟨rfl, List.nodup_nil⟩

theorem Tallies.push (h : s.Tallies) (kind : FrameKind) : (s.push kind).Tallies := by
  refine ⟨?_, h.nodup⟩
  show s.entries.map Prod.fst = List.flatMap _ (⟨kind, []⟩ :: s.frames)
  rw [List.flatMap_cons, List.reverse_nil, List.nil_append]
  exact h.keys

theorem Tallies.put (h : s.Tallies) {name : String} {a : α} {b : Bool}
    (hput : s.put name a = .ok (b, t)) : t.Tallies := by
  rcases put_cases hput with ⟨-, rfl⟩ | ⟨hfree, hopen, rfl⟩
  · exact h
  · obtain ⟨top, rest, hframes⟩ := List.exists_cons_of_ne_nil hopen
    have hkeys := h.keys
    rw [hframes] at hkeys
    constructor
    · simp [grow, hframes, hkeys]
    · show (name :: s.entries.map Prod.fst).Nodup
      refine List.nodup_cons.mpr ⟨?_, h.nodup⟩
      intro hmem
      obtain ⟨e, he, hname⟩ := List.mem_map.mp hmem
      exact (has_eq_false_iff s name).mp hfree e he hname

theorem Tallies.set (h : s.Tallies) {name : String} {a : α} (hset : s.set name a = .ok t) :
    t.Tallies := by
  obtain rfl := eq_of_set hset
  have hkeys := map_fst_replace name a s.entries
  exact ⟨hkeys.trans h.keys, hkeys ▸ h.nodup⟩

theorem Tallies.pop (h : s.Tallies) {names : List String} (hpop : s.pop = .ok (names, t)) :
    t.Tallies := by
  obtain ⟨kind, rest, hframes, rfl⟩ := exists_frame_of_pop hpop
  -- The entries of the frame come first, and the others have none of its names.
  have hkeys := h.keys
  rw [hframes, List.flatMap_cons] at hkeys
  obtain ⟨inside, outside, hentries, hinside, houtside⟩ := List.map_eq_append_iff.mp hkeys
  have hnodup := h.nodup
  rw [hkeys, List.nodup_append] at hnodup
  obtain ⟨-, hrest, hdisjoint⟩ := hnodup
  have hgone : inside.filter (fun e => !names.contains e.1) = [] := by
    rw [List.filter_eq_nil_iff]
    intro e he
    have hmem : e.1 ∈ names.reverse := hinside ▸ List.mem_map_of_mem he
    simpa using hmem
  have hleft : outside.filter (fun e => !names.contains e.1) = outside := by
    rw [List.filter_eq_self]
    intro e he
    have hmem : e.1 ∈ rest.flatMap fun frame => frame.names.reverse :=
      houtside ▸ List.mem_map_of_mem he
    simp only [Bool.not_eq_true', ← Bool.not_eq_true, List.contains_iff_mem]
    intro htop
    exact hdisjoint _ (List.mem_reverse.mpr htop) _ hmem rfl
  rw [hentries, List.filter_append, hgone, hleft, List.nil_append]
  exact ⟨houtside, houtside ▸ hrest⟩

end Scope

end ListCalc
