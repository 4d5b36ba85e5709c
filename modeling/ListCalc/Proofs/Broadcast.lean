/-
Broadcasting is pointwise.

A position in a value is a path of indices.  An operand has something at a path, or
the path leaves it behind a number, which then stands for all that is further down.
Two operands are compatible if no two lists of different lengths meet; an operator
then works at every path by itself.

* `broadcast_eq_ok` — what broadcasting does on one level;
* `exists_broadcast_iff` — it succeeds on compatible operands and on no others;
* `pointwiseAt_of_broadcast` — what the result has at a path;
* `firstMismatch_of_broadcast` — where it fails, with paths ordered so that a list
  comes before its elements and these from the left;
* `applyOperator_pointwise` — all of this for the five operators.
-/
import ListCalc.Expr.Eval

namespace ListCalc

namespace Value

/-! ### Paths -/

/-- What stands at a path.  Nothing stands behind a number. -/
def at? : List Nat → Value → Option Value
  | [], v => some v
  | _ :: _, scalar _ => none
  | i :: p, list vs => vs[i]?.bind (at? p)

/-- What an operand brings in at an index: its element there, or itself if it is a number. -/
def elem? : Value → Nat → Option Value
  | scalar x, _ => some (scalar x)
  | list vs, i => vs[i]?

/-- What an operand brings in at a path: what stands there, or the number that the path has
reached before its end. -/
def supplied? : List Nat → Value → Option Value
  | [], v => some v
  | i :: p, v => (v.elem? i).bind (supplied? p)

theorem at?_list_cons {vs : List Value} {i : Nat} {w : Value} (hw : vs[i]? = some w)
    (p : List Nat) : (list vs).at? (i :: p) = w.at? p := by
  rw [at?, hw, Option.bind_some]

/-- What is found behind an index is found in the element there. -/
theorem at?_of_cons {v a u : Value} {i : Nat} {p : List Nat} (ha : v.elem? i = some a)
    (hu : v.at? (i :: p) = some u) : a.at? p = some u := by
  cases v with
  | scalar x => cases hu
  | list vs => rwa [at?_list_cons ha] at hu

theorem isSome_at?_of_cons {v a : Value} {i : Nat} {p : List Nat} (ha : v.elem? i = some a)
    (h : (v.at? (i :: p)).isSome = true) : (a.at? p).isSome = true := by
  obtain ⟨u, hu⟩ := Option.isSome_iff_exists.mp h
  exact Option.isSome_of_eq_some (at?_of_cons ha hu)

/-- A number stands for all that is further down, and a list does not. -/
theorem at?_of_supplied? {v : Value} {us : List Value} {p : List Nat}
    (h : v.supplied? p = some (list us)) : v.at? p = some (list us) := by
  induction p generalizing v with
  | nil => exact h
  | cons i p ih =>
    obtain ⟨a, ha, hu⟩ := Option.bind_eq_some_iff.mp h
    cases v with
    | scalar x =>
      -- The number stays the same on the rest of the path, which is not a list.
      obtain rfl := Option.some.inj ha
      cases p with
      | nil => cases hu
      | cons j p => cases ih hu
    | list vs =>
      rw [at?_list_cons ha]
      exact ih hu

/-- Where a number has something, every value has. -/
theorem isSome_at?_of_scalar {x : Float} {p : List Nat} (h : ((scalar x).at? p).isSome = true)
    (v : Value) : (v.at? p).isSome = true := by
  cases p with
  | nil => rfl
  | cons i p => cases h

/-- If one of two operands is a list and one of their elements at an index has something at a path,
one of the operands has something behind the index.  An element that is there because its operand
is a number has something at the end of the path only, and there the other one has, too. -/
theorem isSome_at?_cons {l r a b : Value} {i : Nat} {p : List Nat}
    (hlist : ∃ us, l = list us ∨ r = list us) (ha : l.elem? i = some a) (hb : r.elem? i = some b)
    (h : (a.at? p).isSome = true ∨ (b.at? p).isSome = true) :
    (l.at? (i :: p)).isSome = true ∨ (r.at? (i :: p)).isSome = true := by
  cases l with
  | list ls =>
    rw [at?_list_cons ha]
    cases r with
    | list rs =>
      rw [at?_list_cons hb]
      exact h
    | scalar y =>
      obtain rfl := Option.some.inj hb
      exact .inl (h.elim id fun hy => isSome_at?_of_scalar hy a)
  | scalar x =>
    obtain rfl := Option.some.inj ha
    obtain ⟨us, hx | rfl⟩ := hlist
    · cases hx
    · rw [at?_list_cons hb]
      exact .inr (h.elim (fun hx => isSome_at?_of_scalar hx b) id)

/-! ### Compatible operands -/

mutual

/-- One of the two is a number, or both are lists of one length with compatible elements. -/
def Compatible : Value → Value → Prop
  | scalar _, _ => True
  | list _, scalar _ => True
  | list ls, list rs => ls.length = rs.length ∧ AllCompatible ls rs

/-- The elements that stand at the same index are compatible. -/
def AllCompatible : List Value → List Value → Prop
  | l :: ls, r :: rs => Compatible l r ∧ AllCompatible ls rs
  | _, _ => True

end

/-- Two lists meet at the path and have the lengths of the mismatch, which differ. -/
def MismatchAt (l r : Value) (p : List Nat) (m : Mismatch) : Prop :=
  m.left ≠ m.right ∧ (∃ ls, l.at? p = some (list ls) ∧ ls.length = m.left) ∧
    ∃ rs, r.at? p = some (list rs) ∧ rs.length = m.right

/-- The path `p` is `q` or comes before it: a list comes before its elements, and these come from
the left. -/
def NoLater : List Nat → List Nat → Prop
  | [], _ => True
  | _ :: _, [] => False
  | i :: p, j :: q => i < j ∨ i = j ∧ NoLater p q

/-- The mismatch at the path is the first one. -/
def FirstMismatch (l r : Value) (p : List Nat) (m : Mismatch) : Prop :=
  MismatchAt l r p m ∧ ∀ q n, MismatchAt l r q n → NoLater p q

/-- What the result `v` of meeting `l` and `r` has at a path. -/
structure PointwiseAt (f : Float → Float → Float) (l r v : Value) (p : List Nat) : Prop where
  /-- where the left operand has a list, the result has one of its length -/
  left : ∀ ls, l.at? p = some (list ls) → ∃ vs, v.at? p = some (list vs) ∧ vs.length = ls.length
  /-- where the right operand has a list, the result has one of its length -/
  right : ∀ rs, r.at? p = some (list rs) → ∃ vs, v.at? p = some (list vs) ∧ vs.length = rs.length
  /-- where neither has a list but one has a number, the result has the number of both -/
  number : ∀ x y, l.supplied? p = some (scalar x) → r.supplied? p = some (scalar y) →
    (l.at? p).isSome = true ∨ (r.at? p).isSome = true → v.at? p = some (scalar (f x y))
  /-- elsewhere the result has nothing -/
  only : (v.at? p).isSome = true → (l.supplied? p).isSome = true ∧ (r.supplied? p).isSome = true ∧
    ((l.at? p).isSome = true ∨ (r.at? p).isSome = true)

variable {f : Float → Float → Float} {l r v : Value}

/-! ### One level -/

theorem mapAll_eq_map (g : Float → Float) (vs : List Value) : mapAll g vs = vs.map (map g) := by
  induction vs with
  | nil => rfl
  | cons v vs ih => rw [mapAll, ih, List.map_cons]

theorem broadcast_scalar_left (x : Float) (r : Value) :
    broadcast f (scalar x) r = .ok (r.map (f x)) := by
  rw [broadcast]

theorem broadcast_scalar_right (l : Value) (y : Float) :
    broadcast f l (scalar y) = .ok (l.map (f · y)) := by
  cases l with
  | scalar x => rw [broadcast, map, map]
  | list ls => rw [broadcast]

/-- The list has a given length, if the operand is one. -/
def Fits (n : Nat) : Value → Prop
  | scalar _ => True
  | list vs => vs.length = n

theorem Fits.at?_cons {n : Nat} (h : v.Fits n) {i : Nat} (hi : n ≤ i) (p : List Nat) :
    v.at? (i :: p) = none := by
  cases v with
  | scalar x => rfl
  | list vs =>
    have hlen : vs.length = n := h
    simp [at?, List.getElem?_eq_none (hlen ▸ hi)]

/-- Lists that are broadcast element by element give as many elements. -/
theorem broadcastAll_eq_ok {ls rs vs : List Value} (hlen : ls.length = rs.length)
    (h : broadcastAll f ls rs = .ok vs) :
    vs.length = ls.length ∧ ∀ (i : Nat) (v : Value), vs[i]? = some v →
      ∃ a b, ls[i]? = some a ∧ rs[i]? = some b ∧ broadcast f a b = .ok v := by
  induction ls generalizing rs vs with
  | nil =>
    rw [broadcastAll.eq_def] at h
    obtain rfl := Except.ok.inj h
    exact ⟨rfl, fun i v hv => by simp at hv⟩
  | cons l ls ih =>
    cases rs with
    | nil => cases hlen
    | cons r rs =>
      rw [broadcastAll] at h
      cases hv : broadcast f l r with
      | error m => rw [hv] at h; cases h
      | ok v =>
        cases hvs : broadcastAll f ls rs with
        | error m => rw [hv, hvs] at h; cases h
        | ok rest =>
          rw [hv, hvs] at h
          obtain rfl := Except.ok.inj h
          obtain ⟨hlength, helems⟩ := ih (Nat.succ.inj hlen) hvs
          refine ⟨congrArg (· + 1) hlength, fun i w hw => ?_⟩
          cases i with
          | zero =>
            obtain rfl := Option.some.inj hw
            exact ⟨l, r, rfl, rfl, hv⟩
          | succ i => exact helems i w hw

/-- **One level of broadcasting.**  Two numbers give a number.  Otherwise the result is a list of
the length of each operand that is one, and what the operands bring in at an index is broadcast
there. -/
theorem broadcast_eq_ok (h : broadcast f l r = .ok v) :
    (∃ x y, l = scalar x ∧ r = scalar y ∧ v = scalar (f x y)) ∨
    (∃ vs, v = list vs ∧ l.Fits vs.length ∧ r.Fits vs.length ∧
      (∃ us, l = list us ∨ r = list us) ∧
      ∀ (i : Nat) (w : Value), vs[i]? = some w →
        ∃ a b, l.elem? i = some a ∧ r.elem? i = some b ∧ broadcast f a b = .ok w) := by
  cases l with
  | scalar x =>
    rw [broadcast_scalar_left] at h
    obtain rfl := Except.ok.inj h
    cases r with
    | scalar y => exact .inl ⟨x, y, rfl, rfl, rfl⟩
    | list rs =>
      refine .inr ⟨rs.map (map (f x)), ?_, trivial, (List.length_map _).symm, ⟨rs, .inr rfl⟩, ?_⟩
      · rw [map, mapAll_eq_map]
      · intro i w hw
        rw [List.getElem?_map] at hw
        obtain ⟨b, hb, rfl⟩ := Option.map_eq_some_iff.mp hw
        exact ⟨scalar x, b, rfl, hb, broadcast_scalar_left x b⟩
  | list ls =>
    cases r with
    | scalar y =>
      rw [broadcast_scalar_right] at h
      obtain rfl := Except.ok.inj h
      refine .inr ⟨ls.map (map (f · y)), ?_, (List.length_map _).symm, trivial, ⟨ls, .inl rfl⟩, ?_⟩
      · rw [map, mapAll_eq_map]
      · intro i w hw
        rw [List.getElem?_map] at hw
        obtain ⟨a, ha, rfl⟩ := Option.map_eq_some_iff.mp hw
        exact ⟨a, scalar y, ha, rfl, broadcast_scalar_right a y⟩
    | list rs =>
      rw [broadcast] at h
      split at h
      · next hlen =>
        cases hvs : broadcastAll f ls rs with
        | error m => rw [hvs] at h; cases h
        | ok vs =>
          rw [hvs] at h
          obtain rfl := Except.ok.inj h
          obtain ⟨hlength, helems⟩ := broadcastAll_eq_ok hlen hvs
          exact .inr ⟨vs, rfl, hlength.symm, hlen.symm.trans hlength.symm, ⟨ls, .inl rfl⟩, helems⟩
      · cases h

/-! ### When it succeeds -/

mutual

/-- Broadcasting succeeds on compatible operands, and on no others. -/
theorem exists_broadcast_iff (f : Float → Float → Float) :
    (l r : Value) → ((∃ v, broadcast f l r = .ok v) ↔ l.Compatible r)
  | scalar x, r => by
    rw [broadcast_scalar_left, Compatible]
    simp
  | list ls, scalar y => by
    rw [broadcast_scalar_right, Compatible]
    simp
  | list ls, list rs => by
    rw [broadcast, Compatible, ← exists_broadcastAll_iff f ls rs]
    split
    · next hlen =>
      cases broadcastAll f ls rs with
      | ok vs => simp [hlen, bind, Except.bind, pure, Except.pure]
      | error m => simp [bind, Except.bind]
    · next hlen => simp [hlen]

/-- The same for each of some operands. -/
theorem exists_broadcastAll_iff (f : Float → Float → Float) :
    (ls rs : List Value) → ((∃ vs, broadcastAll f ls rs = .ok vs) ↔ AllCompatible ls rs)
  | [], rs => by
    rw [broadcastAll.eq_def, AllCompatible.eq_def]
    simp
  | l :: ls, [] => by
    rw [broadcastAll.eq_def, AllCompatible.eq_def]
    simp
  | l :: ls, r :: rs => by
    rw [broadcastAll, AllCompatible, ← exists_broadcast_iff f l r,
      ← exists_broadcastAll_iff f ls rs]
    cases broadcast f l r with
    | error m => simp [bind, Except.bind]
    | ok v =>
      cases broadcastAll f ls rs with
      | error m => simp [bind, Except.bind]
      | ok vs => simp [bind, Except.bind, pure, Except.pure]

end

/-! ### What the result has at a path -/

theorem pointwiseAt_scalar (x y : Float) (p : List Nat) :
    PointwiseAt f (scalar x) (scalar y) (scalar (f x y)) p := by
  cases p with
  | nil =>
    constructor
    · rintro ls ⟨⟩
    · rintro rs ⟨⟩
    · rintro x' y' ⟨⟩ ⟨⟩ -
      rfl
    · exact fun _ => ⟨rfl, rfl, .inl rfl⟩
  | cons i p =>
    -- Behind two numbers there is nothing.
    constructor
    · rintro ls ⟨⟩
    · rintro rs ⟨⟩
    · rintro x' y' - - (hx | hy)
      · cases hx
      · cases hy
    · rintro ⟨⟩

theorem pointwiseAt_nil {vs : List Value} (hl : l.Fits vs.length) (hr : r.Fits vs.length)
    (hlist : ∃ us, l = list us ∨ r = list us) : PointwiseAt f l r (list vs) [] := by
  constructor
  · rintro ls ⟨⟩
    exact ⟨vs, rfl, hl.symm⟩
  · rintro rs ⟨⟩
    exact ⟨vs, rfl, hr.symm⟩
  · rintro x y ⟨⟩ ⟨⟩ -
    obtain ⟨us, hx | hy⟩ := hlist
    · cases hx
    · cases hy
  · exact fun _ => ⟨rfl, rfl, .inl rfl⟩

/-- What the result has behind an index is what the result there has. -/
theorem pointwiseAt_cons {vs : List Value} {a b w : Value} {i : Nat} {p : List Nat}
    (hlist : ∃ us, l = list us ∨ r = list us) (hw : vs[i]? = some w) (ha : l.elem? i = some a)
    (hb : r.elem? i = some b) (h : PointwiseAt f a b w p) :
    PointwiseAt f l r (list vs) (i :: p) := by
  have hl : l.supplied? (i :: p) = a.supplied? p := by simp [supplied?, ha]
  have hr : r.supplied? (i :: p) = b.supplied? p := by simp [supplied?, hb]
  constructor
  · intro ls hls
    rw [at?_list_cons hw]
    exact h.left ls (at?_of_cons ha hls)
  · intro rs hrs
    rw [at?_list_cons hw]
    exact h.right rs (at?_of_cons hb hrs)
  · intro x y hx hy hsome
    rw [hl] at hx
    rw [hr] at hy
    rw [at?_list_cons hw]
    exact h.number x y hx hy (hsome.imp (isSome_at?_of_cons ha) (isSome_at?_of_cons hb))
  · intro hsome
    rw [at?_list_cons hw] at hsome
    obtain ⟨hsl, hsr, hat⟩ := h.only hsome
    rw [hl, hr]
    exact ⟨hsl, hsr, isSome_at?_cons hlist ha hb hat⟩

/-- An index that is too large for the result is too large for the operands that are lists. -/
theorem pointwiseAt_cons_of_le {vs : List Value} {i : Nat} (hl : l.Fits vs.length)
    (hr : r.Fits vs.length) (hi : vs.length ≤ i) (p : List Nat) :
    PointwiseAt f l r (list vs) (i :: p) := by
  have hv : Fits vs.length (list vs) := rfl
  constructor
  · intro ls hls
    rw [hl.at?_cons hi] at hls
    cases hls
  · intro rs hrs
    rw [hr.at?_cons hi] at hrs
    cases hrs
  · rintro x y - - hsome
    rw [hl.at?_cons hi, hr.at?_cons hi] at hsome
    simp at hsome
  · intro hsome
    rw [hv.at?_cons hi] at hsome
    cases hsome

/-- **Broadcasting works at every path by itself.** -/
theorem pointwiseAt_of_broadcast (h : broadcast f l r = .ok v) (p : List Nat) :
    PointwiseAt f l r v p := by
  induction p generalizing l r v with
  | nil =>
    obtain ⟨x, y, rfl, rfl, rfl⟩ | ⟨vs, rfl, hl, hr, hlist, -⟩ := broadcast_eq_ok h
    · exact pointwiseAt_scalar x y []
    · exact pointwiseAt_nil hl hr hlist
  | cons i p ih =>
    obtain ⟨x, y, rfl, rfl, rfl⟩ | ⟨vs, rfl, hl, hr, hlist, helems⟩ := broadcast_eq_ok h
    · exact pointwiseAt_scalar x y (i :: p)
    · cases hw : vs[i]? with
      | some w =>
        obtain ⟨a, b, ha, hb, hab⟩ := helems i w hw
        exact pointwiseAt_cons hlist hw ha hb (ih hab)
      | none => exact pointwiseAt_cons_of_le hl hr (List.getElem?_eq_none_iff.mp hw) p

/-! ### No other value has that -/

/-- The outermost node of a value: a number, or the length of a list. -/
def node : Value → Float ⊕ Nat
  | scalar x => .inl x
  | list vs => .inr vs.length

mutual

/-- Values with the same nodes at all paths are the same. -/
theorem eq_of_node : (v w : Value) → (∀ p, (v.at? p).map node = (w.at? p).map node) → v = w
  | scalar x, scalar y, h => by
    have hroot := h []
    simpa [at?, node] using hroot
  | scalar x, list ws, h => by
    have hroot := h []
    simp [at?, node] at hroot
  | list vs, scalar y, h => by
    have hroot := h []
    simp [at?, node] at hroot
  | list vs, list ws, h => by
    have hroot := h []
    have hlen : vs.length = ws.length := by simpa [at?, node] using hroot
    exact congrArg list (eq_of_nodes vs ws hlen fun i p => h (i :: p))

/-- The same for the elements of two lists. -/
theorem eq_of_nodes : (vs ws : List Value) → vs.length = ws.length →
    (∀ i p, ((list vs).at? (i :: p)).map node = ((list ws).at? (i :: p)).map node) → vs = ws
  | [], [], _, _ => rfl
  | v :: vs, w :: ws, hlen, h => by
    rw [eq_of_node v w fun p => h 0 p,
      eq_of_nodes vs ws (Nat.succ.inj hlen) fun i p => h (i + 1) p]

end

/-- The node of the result at a path is determined by the operands. -/
theorem PointwiseAt.node_eq {w : Value} {p : List Nat} (hv : PointwiseAt f l r v p)
    (hw : PointwiseAt f l r w p) : (v.at? p).map node = (w.at? p).map node := by
  -- Where one of the two has something, both have the same.
  have hsome : (l.supplied? p).isSome = true → (r.supplied? p).isSome = true →
      (l.at? p).isSome = true ∨ (r.at? p).isSome = true →
      (v.at? p).map node = (w.at? p).map node := by
    intro hl hr hat
    obtain ⟨a, ha⟩ := Option.isSome_iff_exists.mp hl
    obtain ⟨b, hb⟩ := Option.isSome_iff_exists.mp hr
    cases a with
    | list ls =>
      obtain ⟨vs, hvs, hvlen⟩ := hv.left ls (at?_of_supplied? ha)
      obtain ⟨ws, hws, hwlen⟩ := hw.left ls (at?_of_supplied? ha)
      simp [hvs, hws, node, hvlen, hwlen]
    | scalar x =>
      cases b with
      | list rs =>
        obtain ⟨vs, hvs, hvlen⟩ := hv.right rs (at?_of_supplied? hb)
        obtain ⟨ws, hws, hwlen⟩ := hw.right rs (at?_of_supplied? hb)
        simp [hvs, hws, node, hvlen, hwlen]
      | scalar y => rw [hv.number x y ha hb hat, hw.number x y ha hb hat]
  cases hvp : v.at? p with
  | some u =>
    obtain ⟨hl, hr, hat⟩ := hv.only (by rw [hvp]; rfl)
    rw [← hvp]
    exact hsome hl hr hat
  | none =>
    cases hwp : w.at? p with
    | none => rfl
    | some u =>
      obtain ⟨hl, hr, hat⟩ := hw.only (by rw [hwp]; rfl)
      rw [← hvp, ← hwp]
      exact hsome hl hr hat

/-- Compatible operands have one value that is pointwise, the one that broadcasting gives. -/
theorem broadcast_eq_ok_iff (h : l.Compatible r) :
    broadcast f l r = .ok v ↔ ∀ p, PointwiseAt f l r v p := by
  constructor
  · exact pointwiseAt_of_broadcast
  · intro hv
    obtain ⟨w, hw⟩ := (exists_broadcast_iff f l r).mpr h
    rw [hw, eq_of_node w v fun p => (pointwiseAt_of_broadcast hw p).node_eq (hv p)]

/-! ### Where it fails -/

theorem not_mismatchAt_of_broadcast (h : broadcast f l r = .ok v) (p : List Nat) (m : Mismatch) :
    ¬ MismatchAt l r p m := by
  rintro ⟨hne, ⟨ls, hls, hleft⟩, rs, hrs, hright⟩
  obtain ⟨vs, hvs, hvl⟩ := (pointwiseAt_of_broadcast h p).left ls hls
  obtain ⟨ws, hws, hwr⟩ := (pointwiseAt_of_broadcast h p).right rs hrs
  rw [hvs] at hws
  obtain rfl : vs = ws := by simpa using hws
  exact hne (hleft.symm.trans (hvl.symm.trans (hwr.trans hright)))

/-- A mismatch behind an index is one between the elements there. -/
theorem mismatchAt_cons_iff {ls rs : List Value} {i : Nat} {p : List Nat} {m : Mismatch} :
    MismatchAt (list ls) (list rs) (i :: p) m ↔
      ∃ a b, ls[i]? = some a ∧ rs[i]? = some b ∧ MismatchAt a b p m := by
  constructor
  · rintro ⟨hne, ⟨us, hus, hleft⟩, ws, hws, hright⟩
    obtain ⟨a, ha, hat⟩ := Option.bind_eq_some_iff.mp hus
    obtain ⟨b, hb, hbt⟩ := Option.bind_eq_some_iff.mp hws
    exact ⟨a, b, ha, hb, hne, ⟨us, hat, hleft⟩, ws, hbt, hright⟩
  · rintro ⟨a, b, ha, hb, hne, ⟨us, hus, hleft⟩, ws, hws, hright⟩
    exact ⟨hne, ⟨us, (at?_list_cons ha p).trans hus, hleft⟩, ws, (at?_list_cons hb p).trans hws,
      hright⟩

/-- In lists of one length, the first mismatch is that of the first elements that have one. -/
theorem firstMismatch_cons {ls rs : List Value} {a b : Value} {i : Nat} {p : List Nat}
    {m : Mismatch} (hlen : ls.length = rs.length) (ha : ls[i]? = some a) (hb : rs[i]? = some b)
    (h : FirstMismatch a b p m)
    (hbefore : ∀ j < i, ∀ a' b' q n, ls[j]? = some a' → rs[j]? = some b' →
      ¬ MismatchAt a' b' q n) : FirstMismatch (list ls) (list rs) (i :: p) m := by
  refine ⟨mismatchAt_cons_iff.mpr ⟨a, b, ha, hb, h.1⟩, ?_⟩
  intro q n hq
  cases q with
  | nil =>
    -- The two lists themselves have one length.
    obtain ⟨hne, ⟨us, ⟨⟩, hleft⟩, ws, ⟨⟩, hright⟩ := hq
    exact absurd (hleft.symm.trans (hlen.trans hright)) hne
  | cons j q =>
    obtain ⟨a', b', ha', hb', hab'⟩ := mismatchAt_cons_iff.mp hq
    rcases Nat.lt_trichotomy i j with hij | rfl | hji
    · exact .inl hij
    · rw [ha] at ha'
      rw [hb] at hb'
      obtain rfl := Option.some.inj ha'
      obtain rfl := Option.some.inj hb'
      exact .inr ⟨rfl, h.2 q n hab'⟩
    · exact absurd hab' (hbefore j hji a' b' q n ha' hb')

mutual

/-- **Broadcasting fails at the first mismatch.** -/
theorem firstMismatch_of_broadcast (f : Float → Float → Float) : (l r : Value) → {m : Mismatch} →
    broadcast f l r = .error m → ∃ p, FirstMismatch l r p m
  | scalar x, r, m, h => by
    rw [broadcast_scalar_left] at h
    cases h
  | list ls, scalar y, m, h => by
    rw [broadcast_scalar_right] at h
    cases h
  | list ls, list rs, m, h => by
    rw [broadcast] at h
    split at h
    · next hlen =>
      cases hvs : broadcastAll f ls rs with
      | ok vs => rw [hvs] at h; cases h
      | error n =>
        rw [hvs] at h
        obtain rfl := Except.error.inj h
        obtain ⟨i, a, b, p, ha, hb, hab, hbefore⟩ := firstMismatch_of_broadcastAll f ls rs hvs
        exact ⟨i :: p, firstMismatch_cons hlen ha hb hab hbefore⟩
    · next hlen =>
      obtain rfl := Except.error.inj h
      exact ⟨[], ⟨hlen, ⟨ls, rfl, rfl⟩, rs, rfl, rfl⟩, fun q _ _ => trivial⟩

/-- Of the elements of two lists, the first two that do not fit are told about. -/
theorem firstMismatch_of_broadcastAll (f : Float → Float → Float) : (ls rs : List Value) →
    {m : Mismatch} → broadcastAll f ls rs = .error m →
      ∃ (i : Nat) (a b : Value) (p : List Nat), ls[i]? = some a ∧ rs[i]? = some b ∧
        FirstMismatch a b p m ∧ ∀ j < i, ∀ a' b' q n, ls[j]? = some a' → rs[j]? = some b' →
          ¬ MismatchAt a' b' q n
  | [], rs, m, h => by
    rw [broadcastAll.eq_def] at h
    cases h
  | l :: ls, [], m, h => by
    rw [broadcastAll.eq_def] at h
    cases h
  | l :: ls, r :: rs, m, h => by
    rw [broadcastAll] at h
    cases hv : broadcast f l r with
    | error n =>
      rw [hv] at h
      obtain rfl := Except.error.inj h
      obtain ⟨p, hp⟩ := firstMismatch_of_broadcast f l r hv
      exact ⟨0, l, r, p, rfl, rfl, hp, fun j hj => absurd hj (Nat.not_lt_zero j)⟩
    | ok v =>
      cases hvs : broadcastAll f ls rs with
      | ok vs => rw [hv, hvs] at h; cases h
      | error n =>
        rw [hv, hvs] at h
        obtain rfl := Except.error.inj h
        obtain ⟨i, a, b, p, ha, hb, hp, hbefore⟩ := firstMismatch_of_broadcastAll f ls rs hvs
        refine ⟨i + 1, a, b, p, ha, hb, hp, ?_⟩
        intro j hj a' b' q n' ha' hb'
        cases j with
        | zero =>
          obtain rfl := Option.some.inj ha'
          obtain rfl := Option.some.inj hb'
          exact not_mismatchAt_of_broadcast hv q n'
        | succ j => exact hbefore j (Nat.lt_of_succ_lt_succ hj) a' b' q n' ha' hb'

end

end Value

namespace Operator

/-- The text that names an operator. -/
def text : Operator → String
  | plus => "+"
  | minus => "-"
  | times => "*"
  | divide => "/"
  | power => "^"

end Operator

theorem applyOperator_text {τ : Type} (mark : τ) (o : Operator) (l r : Value) :
    applyOperator mark o.text l r = match Value.broadcast o.onNumbers l r with
      | .ok v => .done v
      | .error m =>
        .raise .invalidListLength "" mark (toString m.left ++ " != " ++ toString m.right) := by
  cases o <;> rfl

/-- **An operator works pointwise.**  Each of the five operators succeeds on two values if and only
if these are compatible, and its value is the one that has at every path what `PointwiseAt` says.
On other values it fails at its mark and tells the lengths of the first two lists that meet and
differ. -/
theorem applyOperator_pointwise {τ : Type} (mark : τ) (o : Operator) (l r : Value) :
    ((∃ v, applyOperator mark o.text l r = .done v) ↔ l.Compatible r) ∧
    (l.Compatible r → ∀ v, applyOperator mark o.text l r = .done v ↔
      ∀ p, Value.PointwiseAt o.onNumbers l r v p) ∧
    (¬ l.Compatible r → ∃ p m, Value.FirstMismatch l r p m ∧
      applyOperator mark o.text l r = .raise .invalidListLength "" mark
        (toString m.left ++ " != " ++ toString m.right)) := by
  have hdone : ∀ v, applyOperator mark o.text l r = .done v ↔
      Value.broadcast o.onNumbers l r = .ok v := by
    intro v
    rw [applyOperator_text]
    cases Value.broadcast o.onNumbers l r <;> simp [Outcome.raise]
  simp only [hdone]
  refine ⟨Value.exists_broadcast_iff o.onNumbers l r, fun h v => Value.broadcast_eq_ok_iff h, ?_⟩
  intro h
  cases hv : Value.broadcast o.onNumbers l r with
  | ok v => exact absurd ((Value.exists_broadcast_iff o.onNumbers l r).mp ⟨v, hv⟩) h
  | error m =>
    obtain ⟨p, hp⟩ := Value.firstMismatch_of_broadcast o.onNumbers l r hv
    exact ⟨p, m, hp, by rw [applyOperator_text, hv]⟩

/-- Ragged operands: in the first pair a number meets a list on either side, and in the second one
two lists meet at the path `[1, 0]` that differ in length, in front of two others that do. -/
theorem applyOperator_pointwise_ragged :
    let l : Value := .list [.list [.scalar 1.0], .scalar 2.0]
    let r : Value := .list [.scalar 10.0, .list [.scalar 20.0, .list [.scalar 30.0]]]
    let v : Value := .list [.list [.scalar (1.0 - 10.0)],
      .list [.scalar (2.0 - 20.0), .list [.scalar (2.0 - 30.0)]]]
    let l' : Value := .list [l, .list [.list [l, r], .list []]]
    let r' : Value := .list [r, .list [.list [r], .list [l]]]
    (l.Compatible r ∧ ∀ p, Value.PointwiseAt (· - ·) l r v p) ∧
    (¬ l'.Compatible r' ∧ ∃ p m, Value.FirstMismatch l' r' p m ∧
      applyOperator () "-" l' r' = .raise .invalidListLength "" ()
        (toString m.left ++ " != " ++ toString m.right)) := by
  intro l r v l' r'
  have hfit : l.Compatible r := by simp [l, r, Value.Compatible, Value.AllCompatible]
  have hdiffer : ¬ l'.Compatible r' := by simp [l', r', Value.Compatible, Value.AllCompatible]
  refine ⟨⟨hfit, ?_⟩, hdiffer, ?_⟩
  · exact ((applyOperator_pointwise () .minus l r).2.1 hfit v).mp rfl
  · exact (applyOperator_pointwise () .minus l' r').2.2 hdiffer

end ListCalc
