/-
A scope is a stack of scopes.

A scope keeps all names in one table, and its frames list the names that they have
introduced.  What that amounts to is a map for each open frame: a name means what it
means in the innermost frame that binds it, a name that any open frame binds is refused,
and a new meaning goes to the frame that owns the name.  `ScopeStack` is this second
structure, in which nothing is shared between the frames.

Both are used by the same requests.  `s.StandsFor t` relates a table to the stack that it
stands for; every request gets the same answer from both and leaves them related:

* `Scoping.Simulates` — operations that agree on related states, hence so do requests;
* `StandsFor.push`, `StandsFor.pop`, `StandsFor.put`, `StandsFor.set` — the operations on
  the table and on the stack do;
* `answers_eq_of_requests` — all requests from the start, and what they leave.
-/
import Mathlib.Data.List.Perm.Basic
import ListCalc.Proofs.Lookup
import ListCalc.Proofs.Scope

namespace ListCalc

variable {α σ ρ : Type}

/-! ### The stack -/

/-- One map for each open frame, innermost first.  A map lists names with their meanings in the
order in which they were bound. -/
structure ScopeStack (α : Type) where
  layers : List (List (String × α))

namespace ScopeStack

/-- No frames. -/
def empty : ScopeStack α := ⟨[]⟩

/-- The meaning of a name in the innermost frame that binds it. -/
def get? (t : ScopeStack α) (name : String) : Option α :=
  t.layers.findSome? (List.lookup name)

/-- Some frame binds the name. -/
def has (t : ScopeStack α) (name : String) : Bool :=
  t.layers.any fun layer => (layer.lookup name).isSome

/-- Opens a frame. -/
def push (t : ScopeStack α) : ScopeStack α :=
  ⟨[] :: t.layers⟩

/-- Closes the innermost frame; gives its names. -/
def pop (t : ScopeStack α) : Except Fault (List String × ScopeStack α) :=
  match t.layers with
  | [] => .error .popWithoutFrame
  | top :: rest => .ok (top.map Prod.fst, ⟨rest⟩)

/-- Binds a name in the innermost frame, unless an open frame binds it. -/
def put (name : String) (a : α) (t : ScopeStack α) : Except Fault (Bool × ScopeStack α) :=
  if t.has name then .ok (false, t)
  else match t.layers with
    | [] => .error .putWithoutFrame
    | top :: rest => .ok (true, ⟨(top ++ [(name, a)]) :: rest⟩)

/-- The maps with another meaning for a name in the innermost one that binds it. -/
def setFirst (name : String) (a : α) : List (List (String × α)) → List (List (String × α))
  | [] => []
  | layer :: rest =>
    if (layer.lookup name).isSome then
      layer.map (fun e => if e.1 == name then (name, a) else e) :: rest
    else layer :: setFirst name a rest

/-- Gives a name a new meaning in the frame that owns it. -/
def set (name : String) (a : α) (t : ScopeStack α) : Except Fault (ScopeStack α) :=
  if t.has name then .ok ⟨setFirst name a t.layers⟩ else .error (.setUnbound name)

end ScopeStack

/-! ### Requests -/

/-- What can be asked of names in scope. -/
inductive ScopeRequest (α : Type) where
  | push (kind : FrameKind)
  | pop
  | put (name : String) (a : α)
  | set (name : String) (a : α)
  | get (name : String)
  | has (name : String)
  deriving DecidableEq

/-- What is answered. -/
inductive ScopeAnswer (α : Type) where
  | done
  | popped (names : List String)
  | accepted (fresh : Bool)
  | meaning (a : Option α)
  | bound (b : Bool)
  /-- the request makes no sense; nothing has changed -/
  | fault (f : Fault)
  deriving DecidableEq

/-- The operations of a structure that holds names in scope. -/
structure Scoping (α σ : Type) where
  push : FrameKind → σ → σ
  pop : σ → Except Fault (List String × σ)
  put : String → α → σ → Except Fault (Bool × σ)
  set : String → α → σ → Except Fault σ
  get? : σ → String → Option α
  has : σ → String → Bool

namespace Scoping

/-- The answer to a request and what it leaves. -/
def serve (ops : Scoping α σ) (s : σ) : ScopeRequest α → ScopeAnswer α × σ
  | .push kind => (.done, ops.push kind s)
  | .pop =>
    match ops.pop s with
    | .ok (names, s') => (.popped names, s')
    | .error f => (.fault f, s)
  | .put name a =>
    match ops.put name a s with
    | .ok (fresh, s') => (.accepted fresh, s')
    | .error f => (.fault f, s)
  | .set name a =>
    match ops.set name a s with
    | .ok s' => (.done, s')
    | .error f => (.fault f, s)
  | .get name => (.meaning (ops.get? s name), s)
  | .has name => (.bound (ops.has s name), s)

/-- The answers to requests one after the other, and what they leave. -/
def serveAll (ops : Scoping α σ) : σ → List (ScopeRequest α) → List (ScopeAnswer α) × σ
  | s, [] => ([], s)
  | s, r :: rs =>
    let (answer, s') := ops.serve s r
    let (answers, s'') := serveAll ops s' rs
    (answer :: answers, s'')

/-- Both fail alike, or both succeed with related results. -/
inductive EndAlike (R : σ → ρ → Prop) : Except Fault σ → Except Fault ρ → Prop where
  | ok {x : σ} {y : ρ} (h : R x y) : EndAlike R (.ok x) (.ok y)
  | error (f : Fault) : EndAlike R (.error f) (.error f)

/-- Every operation takes related states to related ones, with the same results. -/
structure Simulates (ops : Scoping α σ) (ops' : Scoping α ρ) (R : σ → ρ → Prop) : Prop where
  push {s : σ} {t : ρ} (h : R s t) (kind : FrameKind) : R (ops.push kind s) (ops'.push kind t)
  pop {s : σ} {t : ρ} (h : R s t) :
    EndAlike (fun x y => x.1 = y.1 ∧ R x.2 y.2) (ops.pop s) (ops'.pop t)
  put {s : σ} {t : ρ} (h : R s t) (name : String) (a : α) :
    EndAlike (fun x y => x.1 = y.1 ∧ R x.2 y.2) (ops.put name a s) (ops'.put name a t)
  set {s : σ} {t : ρ} (h : R s t) (name : String) (a : α) :
    EndAlike R (ops.set name a s) (ops'.set name a t)
  get? {s : σ} {t : ρ} (h : R s t) (name : String) : ops.get? s name = ops'.get? t name
  has {s : σ} {t : ρ} (h : R s t) (name : String) : ops.has s name = ops'.has t name

variable {ops : Scoping α σ} {ops' : Scoping α ρ} {R : σ → ρ → Prop} {s : σ} {t : ρ}

/-- One request gets the same answer from both; a fault leaves both as they are. -/
theorem Simulates.serve (hops : Simulates ops ops' R) (h : R s t) (r : ScopeRequest α) :
    (ops.serve s r).1 = (ops'.serve t r).1 ∧ R (ops.serve s r).2 (ops'.serve t r).2 := by
  cases r with
  | push kind => exact ⟨rfl, hops.push h kind⟩
  | pop =>
    have hpop := hops.pop h
    rw [Scoping.serve, Scoping.serve]
    generalize ops.pop s = x at hpop ⊢
    generalize ops'.pop t = y at hpop ⊢
    cases hpop with
    | ok hxy => exact ⟨congrArg _ hxy.1, hxy.2⟩
    | error f => exact ⟨rfl, h⟩
  | put name a =>
    have hput := hops.put h name a
    rw [Scoping.serve, Scoping.serve]
    generalize ops.put name a s = x at hput ⊢
    generalize ops'.put name a t = y at hput ⊢
    cases hput with
    | ok hxy => exact ⟨congrArg _ hxy.1, hxy.2⟩
    | error f => exact ⟨rfl, h⟩
  | set name a =>
    have hset := hops.set h name a
    rw [Scoping.serve, Scoping.serve]
    generalize ops.set name a s = x at hset ⊢
    generalize ops'.set name a t = y at hset ⊢
    cases hset with
    | ok hxy => exact ⟨rfl, hxy⟩
    | error f => exact ⟨rfl, h⟩
  | get name => exact ⟨congrArg _ (hops.get? h name), h⟩
  | has name => exact ⟨congrArg _ (hops.has h name), h⟩

/-- What holds of one request holds of all of them, one after the other. -/
theorem Simulates.serveAll (hops : Simulates ops ops' R) (h : R s t)
    (rs : List (ScopeRequest α)) :
    (ops.serveAll s rs).1 = (ops'.serveAll t rs).1 ∧
      R (ops.serveAll s rs).2 (ops'.serveAll t rs).2 := by
  induction rs generalizing s t with
  | nil => exact ⟨rfl, h⟩
  | cons r rs ih =>
    obtain ⟨hanswer, hnext⟩ := hops.serve h r
    obtain ⟨hanswers, hlast⟩ := ih hnext
    exact ⟨List.cons_eq_cons.mpr ⟨hanswer, hanswers⟩, hlast⟩

/-- The operations on one table. -/
def flat : Scoping α (Scope α) :=
  ⟨Scope.push, Scope.pop, Scope.put, Scope.set, Scope.get?, Scope.has⟩

/-- The operations on a stack of maps, which does not keep what has opened a frame. -/
def stacked : Scoping α (ScopeStack α) :=
  ⟨fun _ => ScopeStack.push, ScopeStack.pop, ScopeStack.put, ScopeStack.set, ScopeStack.get?,
    ScopeStack.has⟩

end Scoping

/-! ### Meanings -/

namespace ScopeStack

variable {t : ScopeStack α}

theorem get?_cons (layer : List (String × α)) (rest : List (List (String × α))) (name : String) :
    get? ⟨layer :: rest⟩ name = (layer.lookup name).or (get? ⟨rest⟩ name) := by
  rw [get?, List.findSome?_cons]
  cases layer.lookup name <;> rfl

theorem has_eq_isSome (t : ScopeStack α) (name : String) : t.has name = (t.get? name).isSome := by
  obtain ⟨layers⟩ := t
  induction layers with
  | nil => rfl
  | cons layer rest ih =>
    rw [get?_cons, Option.isSome_or, ← ih]
    rfl

/-- The names of all frames. -/
def names (t : ScopeStack α) : List String := t.layers.flatMap (·.map Prod.fst)

theorem has_iff_mem_names (t : ScopeStack α) (name : String) :
    t.has name = true ↔ name ∈ t.names := by
  simp only [has, names, List.any_eq_true, List.mem_flatMap, List.lookup_isSome_iff, beq_iff_eq,
    List.mem_map, eq_comm (a := name)]

theorem get?_eq_none_iff (t : ScopeStack α) (name : String) :
    t.get? name = none ↔ name ∉ t.names := by
  rw [← has_iff_mem_names, has_eq_isSome, Option.not_isSome_iff_eq_none]

theorem map_fst_setFirst (name : String) (a : α) (layers : List (List (String × α))) :
    (setFirst name a layers).map (·.map Prod.fst) = layers.map (·.map Prod.fst) := by
  induction layers with
  | nil => rfl
  | cons layer rest ih =>
    rw [setFirst]
    split
    · rw [List.map_cons, List.map_cons, Scope.map_fst_replace]
    · rw [List.map_cons, List.map_cons, ih]

/-- The frame that owns a name is the one in which it is looked up. -/
theorem get?_setFirst (name other : String) (a : α) (layers : List (List (String × α))) :
    get? ⟨setFirst name a layers⟩ other
      = if other = name then (get? ⟨layers⟩ name).map fun _ => a else get? ⟨layers⟩ other := by
  induction layers with
  | nil => simp [setFirst, get?]
  | cons layer rest ih =>
    rw [setFirst]
    split
    · next howns =>
      obtain ⟨b, hb⟩ := Option.isSome_iff_exists.mp howns
      rw [get?_cons, get?_cons, get?_cons, lookup_replace, hb]
      by_cases hother : other = name <;> simp [hother]
    · next howns =>
      have hnone := Option.not_isSome_iff_eq_none.mp howns
      rw [get?_cons, get?_cons, get?_cons, ih, hnone]
      by_cases hother : other = name
      · simp [hother, hnone]
      · simp [hother]

end ScopeStack

/-! ### The table stands for the stack -/

/-- The frames of the table record the names of the maps, in order and each once, and a name has
the same meaning in both. -/
structure Scope.StandsFor (s : Scope α) (t : ScopeStack α) : Prop where
  tallies : s.Tallies
  frames : s.frames.map Frame.names = t.layers.map (·.map Prod.fst)
  get? : ∀ name, s.get? name = t.get? name

/-- The keys of the table are those that the frames record, in another order. -/
theorem Scope.Tallies.perm {s : Scope α} (h : s.Tallies) :
    (s.entries.map Prod.fst).Perm (s.frames.flatMap Frame.names) := by
  rw [h.keys]
  exact List.Perm.flatMap_left _ fun frame _ => List.reverse_perm frame.names

namespace Scope.StandsFor

variable {s : Scope α} {t : ScopeStack α}

theorem has (h : s.StandsFor t) (name : String) : s.has name = t.has name := by
  rw [Scope.has, h.get?, ScopeStack.has_eq_isSome]

theorem names (h : s.StandsFor t) : s.frames.flatMap Frame.names = t.names := by
  rw [ScopeStack.names, List.flatMap_def, List.flatMap_def, h.frames]

/-- No name is bound by two frames. -/
theorem nodup (h : s.StandsFor t) : t.names.Nodup :=
  h.names ▸ h.tallies.perm.nodup_iff.mp h.tallies.nodup

theorem empty : (.empty : Scope α).StandsFor .empty :=
  ⟨Scope.tallies_empty, rfl, fun _ => rfl⟩

theorem push (h : s.StandsFor t) (kind : FrameKind) : (s.push kind).StandsFor t.push where
  tallies := h.tallies.push kind
  frames := congrArg ([] :: ·) h.frames
  get? name := by
    rw [ScopeStack.push, ScopeStack.get?_cons]
    exact h.get? name

/-- The innermost frame and the innermost map have the same names. -/
theorem frames_cases (h : s.StandsFor t) :
    (s.frames = [] ∧ t = .empty) ∨
    ∃ kind layer frames layers, s.frames = ⟨kind, layer.map Prod.fst⟩ :: frames ∧
      t = ⟨layer :: layers⟩ ∧ frames.map Frame.names = layers.map (·.map Prod.fst) := by
  obtain ⟨layers⟩ := t
  have hframes := h.frames
  cases hs : s.frames with
  | nil =>
    rw [hs] at hframes
    obtain rfl := List.map_eq_nil_iff.mp hframes.symm
    exact .inl ⟨rfl, rfl⟩
  | cons top frames =>
    obtain ⟨kind, recorded⟩ := top
    cases layers with
    | nil =>
      rw [hs] at hframes
      cases hframes
    | cons layer layers =>
      rw [hs, List.map_cons, List.map_cons] at hframes
      obtain ⟨rfl, hrest⟩ := List.cons_eq_cons.mp hframes
      exact .inr ⟨kind, layer, frames, layers, rfl, rfl, hrest⟩

/-- Closing a frame takes its names out of the table, and these are bound by no other frame. -/
theorem pop (h : s.StandsFor t) :
    Scoping.EndAlike (fun x y => x.1 = y.1 ∧ x.2.StandsFor y.2) s.pop t.pop := by
  rcases h.frames_cases with ⟨hs, rfl⟩ | ⟨kind, layer, frames, layers, hs, rfl, hrest⟩
  · rw [Scope.pop, hs]
    exact .error .popWithoutFrame
  · have hpop : s.pop = .ok (layer.map Prod.fst,
        ⟨s.entries.filter fun e => !(layer.map Prod.fst).contains e.1, frames⟩) := by
      rw [Scope.pop, hs]
    rw [hpop]
    refine .ok ⟨rfl, h.tallies.pop hpop, hrest, fun name => ?_⟩
    have hget := h.get? name
    rw [ScopeStack.get?_cons] at hget
    rw [Scope.get?, lookup_filter _ fun key => !(layer.map Prod.fst).contains key]
    by_cases hmem : name ∈ layer.map Prod.fst
    · rw [if_neg (by simpa using hmem)]
      have hdisjoint := h.nodup
      rw [ScopeStack.names, List.flatMap_cons, List.nodup_append] at hdisjoint
      refine ((ScopeStack.get?_eq_none_iff _ _).mpr fun hother => ?_).symm
      exact hdisjoint.2.2 _ hmem _ hother rfl
    · rw [if_pos (by simpa using hmem)]
      have hnone : layer.lookup name = none := by
        rw [List.lookup_eq_none_iff]
        intro e he
        rw [bne_iff_ne]
        rintro rfl
        exact hmem (List.mem_map_of_mem he)
      rw [hnone, Option.none_or] at hget
      exact hget

theorem put (h : s.StandsFor t) (name : String) (a : α) :
    Scoping.EndAlike (fun x y => x.1 = y.1 ∧ x.2.StandsFor y.2) (s.put name a) (t.put name a) := by
  have hhas := h.has name
  rw [Scope.put, ScopeStack.put]
  cases hbound : t.has name with
  | true =>
    rw [if_pos (hhas.trans hbound), if_pos rfl]
    exact .ok ⟨rfl, h⟩
  | false =>
    have hfree : s.has name = false := hhas.trans hbound
    rw [hfree, if_neg Bool.false_ne_true, if_neg Bool.false_ne_true]
    rcases h.frames_cases with ⟨hs, rfl⟩ | ⟨kind, layer, frames, layers, hs, rfl, hrest⟩
    · rw [hs]
      exact .error .putWithoutFrame
    · have hput : s.put name a = .ok (true, ⟨(name, a) :: s.entries,
          ⟨kind, layer.map Prod.fst ++ [name]⟩ :: frames⟩) := by
        rw [Scope.put, hfree, hs]
        rfl
      rw [hs]
      refine .ok ⟨rfl, h.tallies.put hput, ?_, fun other => ?_⟩
      · simp [hrest]
      · have hget := h.get? other
        rw [ScopeStack.get?_cons] at hget
        rw [Scope.get?, lookup_cons, ScopeStack.get?_cons, List.lookup_append, lookup_cons]
        by_cases hother : other = name
        · -- No map has bound the name so far, so the new meaning is the one that is found.
          rw [ScopeStack.has_eq_isSome, ScopeStack.get?_cons, Option.isSome_or,
            Bool.or_eq_false_iff, Option.isSome_eq_false_iff, Option.isNone_iff_eq_none] at hbound
          rw [hother, if_pos rfl, if_pos rfl, hbound.1]
          rfl
        · rw [if_neg hother, if_neg hother, List.lookup_nil, Option.or_none]
          exact hget

theorem set (h : s.StandsFor t) (name : String) (a : α) :
    Scoping.EndAlike StandsFor (s.set name a) (t.set name a) := by
  have hhas := h.has name
  cases hbound : t.has name with
  | false =>
    rw [Scope.set, ScopeStack.set, hhas, hbound]
    exact .error _
  | true =>
    have hset : s.set name a = .ok { s with
        entries := s.entries.map fun e => if e.1 == name then (name, a) else e } := by
      rw [Scope.set, if_pos (hhas.trans hbound)]
    rw [hset, ScopeStack.set, if_pos hbound]
    refine .ok ⟨h.tallies.set hset, ?_, fun other => ?_⟩
    · rw [ScopeStack.map_fst_setFirst]
      exact h.frames
    · rw [Scope.get?, lookup_replace, ScopeStack.get?_setFirst]
      rw [← h.get? name, ← h.get? other]
      rfl

end Scope.StandsFor

theorem standsFor_simulates :
    Scoping.Simulates (Scoping.flat : Scoping α (Scope α)) Scoping.stacked Scope.StandsFor where
  push h kind := h.push kind
  pop h := h.pop
  put h name a := h.put name a
  set h name a := h.set name a
  get? h name := h.get? name
  has h name := h.has name

/-- **A scope is a stack of scopes.**  Whatever is asked of an empty scope, in any order, every
answer is that of a stack of maps: the meanings, whether a name is bound or could be bound, the
names that a closed frame gives back in their order, and which requests make no sense.  At any
time the keys of the table are the names that the frames record, each of them once. -/
theorem answers_eq_of_requests (requests : List (ScopeRequest α)) :
    (Scoping.flat.serveAll .empty requests).1 = (Scoping.stacked.serveAll .empty requests).1 ∧
    let s := (Scoping.flat.serveAll .empty requests).2
    (s.entries.map Prod.fst).Perm (s.frames.flatMap Frame.names) ∧
      (s.frames.flatMap Frame.names).Nodup := by
  obtain ⟨hanswers, hlast⟩ := standsFor_simulates.serveAll Scope.StandsFor.empty requests
  exact ⟨hanswers, hlast.tallies.perm, hlast.names ▸ hlast.nodup⟩

example : (Scoping.flat.serveAll (.empty : Scope Nat) [.push .program, .put "a" 1, .push .block,
    .put "b" 2, .put "a" 3, .set "a" 4, .pop, .get "a", .set "b" 5, .pop, .put "c" 6]).1
    = [.done, .accepted true, .done, .accepted true, .accepted false, .done, .popped ["b"],
      .meaning (some 4), .fault (.setUnbound "b"), .popped ["a"], .fault .putWithoutFrame] := by
  decide

end ListCalc
