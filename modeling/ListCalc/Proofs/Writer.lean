/-
A writer that fails cuts a run short.

A run never looks at its writer: it hands over a line and stops if that fails.  So a
run with a writer that has room for `k` lines is a run with a writer that never fails,
up to the print statement of line `k + 1`.

To say which statement that is, actions are put together a second time, each with the
lines that it writes and the marks of the statements that print them (`Noted`).

* `Noted.Sound` — what an action does with a limited writer, told by its notes, and one
  rule for every way to put actions together;
* `Stmt.act_noted`, `Stmt.sound_noted` — the noted run of a statement is its run, and
  its notes are sound;
* `Session.cutShort` — both for programs, in frames of their own and in the lasting one.
-/
import ListCalc.Proofs.Session

namespace ListCalc

variable {τ α β : Type}

/-- The lines that were written, in order. -/
def Writer.lines (w : Writer) : List String := w.written.reverse

/-- The state with another number of lines that can still be written. -/
def Machine.withRoom (m : Machine τ) (room : Option Nat) : Machine τ :=
  { m with out := { m.out with room } }

/-! ### Actions with notes -/

/-- An action with notes on what it writes: the lines, in order, each with the mark of the
statement that prints it. -/
structure Noted (τ α : Type) where
  act : Action τ α
  notes : Machine τ → List (τ × String)

namespace Noted

/-- An action that writes nothing. -/
def silently (x : Action τ α) : Noted τ α := ⟨x, fun _ => []⟩

/-- Prints a line, and notes it if it could be written. -/
def printLine (mark : τ) (line : String) : Noted τ Unit :=
  ⟨Action.printLine mark line, fun m =>
    match m.out.writeLine line with
    | some _ => [(mark, line)]
    | none => []⟩

/-- The notes of an action that follows on `x` if that is done. -/
def following (x : Action τ α) (notes : α → Machine τ → List (τ × String)) (m : Machine τ) :
    List (τ × String) :=
  match x m with
  | (.done a, m') => notes a m'
  | _ => []

/-- Acts with `x` and, if that is done, with the action its value selects. -/
protected def bind (x : Noted τ α) (f : α → Noted τ β) : Noted τ β :=
  ⟨x.act >>= fun a => (f a).act, fun m =>
    x.notes m ++ following x.act (fun a => (f a).notes) m⟩

instance : Monad (Noted τ) where
  pure a := silently (pure a)
  bind := Noted.bind

/-- Acts inside a frame of its own. -/
def inFrame (kind : FrameKind) (x : Noted τ Unit) : Noted τ Unit :=
  ⟨Action.inFrame kind x.act, fun m => x.notes { m with names := m.names.push kind }⟩

/-- The notes of acting on each of some elements. -/
def notesOfEach (act : α → Noted τ Unit) : List α → Machine τ → List (τ × String)
  | [], _ => []
  | a :: rest, m => (act a).notes m ++ following (act a).act (fun _ => notesOfEach act rest) m

/-- Acts on each of some elements, in order, up to the first failure. -/
def forEach (act : α → Noted τ Unit) (as : List α) : Noted τ Unit :=
  ⟨Action.forEach (fun a => (act a).act) as, notesOfEach act as⟩

/-- The notes of acting on numbers. -/
def notesOfCount (act : Float → Noted τ Unit) (stop step : Float) :
    Nat → Float → Machine τ → List (τ × String)
  | 0, _, _ => []
  | bound + 1, i, m =>
    if i ≤ stop then
      (act i).notes m ++
        following (act i).act (fun _ => notesOfCount act stop step bound (i + step)) m
    else []

/-- Acts on `i`, `i + step`, … as long as they do not exceed `stop`, at most `bound` times and up
to the first failure. -/
def countUp (act : Float → Noted τ Unit) (stop step : Float) (bound : Nat) (i : Float) :
    Noted τ Unit :=
  ⟨Action.countUp (fun i => (act i).act) stop step bound i, notesOfCount act stop step bound i⟩

end Noted

/-! ### Silent actions -/

namespace Action

/-- The action neither looks at the writer nor changes it. -/
def Silent (x : Action τ α) : Prop :=
  ∀ (m : Machine τ) (out : Writer), x { m with out } = ((x m).1, { (x m).2 with out })

theorem Silent.out_eq {x : Action τ α} (hx : Silent x) (m : Machine τ) : (x m).2.out = m.out :=
  congrArg (fun r => r.2.out) (hx m m.out)

theorem silent_ofOutcome (o : Outcome τ α) : Silent (ofOutcome o) :=
  fun _ _ => rfl

theorem silent_query (f : Names τ → Outcome τ α) : Silent (query f) :=
  fun _ _ => rfl

theorem silent_refuseTaken (id : Ident τ) : Silent (refuseTaken id) := by
  intro m out
  simp only [refuseTaken]
  split <;> rfl

theorem silent_bindNew (id : Ident τ) (b : Binding τ) : Silent (bindNew id b) := by
  intro m out
  simp only [bindNew]
  split
  · rfl
  · split <;> rfl

theorem silent_assign (id : Ident τ) (v : Value) : Silent (assign id v) := by
  intro m out
  simp only [assign]
  split <;> rfl

theorem silent_bind {x : Action τ α} {f : α → Action τ β} (hx : Silent x)
    (hf : ∀ a, Silent (f a)) : Silent (x >>= f) := by
  intro m out
  rw [bind_apply, bind_apply, hx m out]
  rcases x m with ⟨a | e | _, m'⟩
  · exact hf a m' out
  · rfl
  · rfl

theorem silent_forEach {act : α → Action τ Unit} (hact : ∀ a, Silent (act a)) (as : List α) :
    Silent (forEach act as) := by
  induction as with
  | nil => exact fun _ _ => rfl
  | cons a as ih =>
    rw [forEach_cons]
    exact silent_bind (hact a) fun _ => ih

end Action

/-! ### Notes that are sound -/

namespace Noted

/-- The notes tell what the action does.  With a writer that never fails it writes the lines that
they list.  With one that has room for all of these it does the same.  With any other one it
writes as many of them as there is room for, and fails at the mark of the next. -/
structure Sound (x : Noted τ α) : Prop where
  out : ∀ m, m.out.room = none →
    (x.act m).2.out = ⟨((x.notes m).map Prod.snd).reverse ++ m.out.written, none⟩
  within : ∀ m, m.out.room = none → ∀ k, (x.notes m).length ≤ k →
    x.act (m.withRoom (some k))
      = ((x.act m).1, (x.act m).2.withRoom (some (k - (x.notes m).length)))
  beyond : ∀ m, m.out.room = none → ∀ k note, (x.notes m)[k]? = some note →
    ∃ names, x.act (m.withRoom (some k)) = (.failed (.write note.1 "broken pipe"),
      ⟨names, ⟨(((x.notes m).take k).map Prod.snd).reverse ++ m.out.written, some 0⟩⟩)

theorem sound_silently {x : Action τ α} (hx : Action.Silent x) : (silently x).Sound where
  out m hm := by
    have hout := hx.out_eq m
    rw [← hm]
    exact hout
  within m _ k _ := by
    show x (m.withRoom (some k)) = ((x m).1, (x m).2.withRoom (some k))
    rw [Machine.withRoom, Machine.withRoom, hx.out_eq m]
    exact hx m _
  beyond _ _ k note hnote := by simp [silently] at hnote

theorem sound_printLine (mark : τ) (line : String) : (printLine mark line).Sound := by
  have hwrite : ∀ m : Machine τ, m.out.room = none →
      m.out.writeLine line = some { m.out with written := line :: m.out.written } := by
    intro m hm
    simp [Writer.writeLine, hm]
  have hnotes : ∀ m : Machine τ, m.out.room = none →
      (printLine mark line).notes m = [(mark, line)] := by
    intro m hm
    simp only [printLine, hwrite m hm]
  have hact : ∀ m : Machine τ, m.out.room = none → (printLine mark line).act m
      = (.done (), { m with out := { m.out with written := line :: m.out.written } }) := by
    intro m hm
    simp only [printLine, Action.printLine, hwrite m hm]
  constructor
  · intro m hm
    rw [hact m hm, hnotes m hm, ← hm]
    rfl
  · intro m hm k hk
    rw [hnotes m hm] at hk ⊢
    obtain ⟨j, rfl⟩ : ∃ j, k = j + 1 := ⟨k - 1, by simp at hk; omega⟩
    rw [hact m hm]
    rfl
  · intro m hm k note hnote
    rw [hnotes m hm] at hnote ⊢
    cases k with
    | zero =>
      obtain rfl := Option.some.inj hnote
      exact ⟨m.names, rfl⟩
    | succ k => simp at hnote

section

variable {x : Noted τ α} {f : α → Noted τ β}

theorem bind_of_done {m m' : Machine τ} {a : α} (h : x.act m = (.done a, m')) :
    (x >>= f).act m = (f a).act m' ∧ (x >>= f).notes m = x.notes m ++ (f a).notes m' := by
  constructor
  · show (x.act >>= fun a => (f a).act) m = _
    rw [Action.bind_apply, h]
  · show x.notes m ++ following x.act (fun a => (f a).notes) m = _
    rw [following, h]

/-- If the first action stops, nothing follows. -/
theorem bind_of_stops {m m' : Machine τ} {o : Outcome τ α} (h : x.act m = (o, m')) (ho : o.Stops) :
    (x >>= f).act m = (o >>= fun _ => .unfinished, m') ∧ (x >>= f).notes m = x.notes m := by
  have hact : (x >>= f).act m = (x.act >>= fun a => (f a).act) m := rfl
  have hnotes : (x >>= f).notes m = x.notes m ++ following x.act (fun a => (f a).notes) m := rfl
  rw [hact, hnotes, Action.bind_apply, following, h]
  cases o with
  | done a => exact absurd rfl (ho a)
  | failed e => exact ⟨rfl, List.append_nil _⟩
  | unfinished => exact ⟨rfl, List.append_nil _⟩

theorem done_or_stops (x : Noted τ α) (m : Machine τ) :
    (∃ a m', x.act m = (.done a, m')) ∨ (∃ o m', x.act m = (o, m') ∧ o.Stops) := by
  rcases x.act m with ⟨a | e | _, m'⟩
  · exact .inl ⟨a, m', rfl⟩
  · exact .inr ⟨_, m', rfl, Outcome.stops_failed e⟩
  · exact .inr ⟨_, m', rfl, Outcome.stops_unfinished⟩

/-- What follows on a sound action has a writer that never fails, if this one has. -/
theorem Sound.room_eq_none {m m' : Machine τ} {o : Outcome τ α} (hx : x.Sound)
    (hm : m.out.room = none) (h : x.act m = (o, m')) : m'.out.room = none := by
  have hout := hx.out m hm
  rw [h] at hout
  exact congrArg Writer.room hout

section

variable {m : Machine τ} (hx : x.Sound) (hm : m.out.room = none)
include hx hm

theorem out_bind (hf : ∀ a, (f a).Sound) : ((x >>= f).act m).2.out
    = ⟨(((x >>= f).notes m).map Prod.snd).reverse ++ m.out.written, none⟩ := by
  have hout := hx.out m hm
  rcases done_or_stops x m with ⟨a, m', h⟩ | ⟨o, m', h, ho⟩
  · obtain ⟨hact, hnotes⟩ := bind_of_done (f := f) h
    rw [h] at hout
    rw [hact, hnotes, (hf a).out m' (hx.room_eq_none hm h), hout]
    simp
  · obtain ⟨hact, hnotes⟩ := bind_of_stops (f := f) h ho
    rw [h] at hout
    rw [hact, hnotes]
    exact hout

/-- What follows on the first action starts with the room that this one leaves. -/
theorem within_bind (hf : ∀ a, (f a).Sound) {k : Nat} (hk : ((x >>= f).notes m).length ≤ k) :
    (x >>= f).act (m.withRoom (some k)) = (((x >>= f).act m).1,
      ((x >>= f).act m).2.withRoom (some (k - ((x >>= f).notes m).length))) := by
  rcases done_or_stops x m with ⟨a, m', h⟩ | ⟨o, m', h, ho⟩
  · obtain ⟨hact, hnotes⟩ := bind_of_done (f := f) h
    rw [hnotes, List.length_append] at hk ⊢
    have hfirst := hx.within m hm k (by omega)
    rw [h] at hfirst
    rw [(bind_of_done hfirst).1, hact, (hf a).within m' (hx.room_eq_none hm h) _ (by omega),
      Nat.sub_sub]
  · obtain ⟨hact, hnotes⟩ := bind_of_stops (f := f) h ho
    rw [hnotes] at hk ⊢
    have hfirst := hx.within m hm k hk
    rw [h] at hfirst
    rw [(bind_of_stops hfirst ho).1, hact]

/-- If there is no room for a line of the first action, nothing follows. -/
theorem beyond_bind_first {k : Nat} {note : τ × String} (hnote : (x.notes m)[k]? = some note) :
    ∃ names, (x >>= f).act (m.withRoom (some k)) = (.failed (.write note.1 "broken pipe"),
      ⟨names, ⟨(((x.notes m).take k).map Prod.snd).reverse ++ m.out.written, some 0⟩⟩) := by
  obtain ⟨names, hfirst⟩ := hx.beyond m hm k note hnote
  refine ⟨names, ?_⟩
  rw [(bind_of_stops hfirst (Outcome.stops_failed _)).1]
  rfl

theorem beyond_bind (hf : ∀ a, (f a).Sound) {k : Nat} {note : τ × String}
    (hnote : ((x >>= f).notes m)[k]? = some note) :
    ∃ names, (x >>= f).act (m.withRoom (some k)) = (.failed (.write note.1 "broken pipe"),
      ⟨names, ⟨((((x >>= f).notes m).take k).map Prod.snd).reverse ++ m.out.written,
        some 0⟩⟩) := by
  rcases done_or_stops x m with ⟨a, m', h⟩ | ⟨o, m', h, ho⟩
  · rw [(bind_of_done (f := f) h).2] at hnote ⊢
    rcases Nat.lt_or_ge k (x.notes m).length with hk | hk
    · rw [List.getElem?_append_left hk] at hnote
      rw [List.take_append_of_le_length (by omega)]
      exact beyond_bind_first hx hm hnote
    · rw [List.getElem?_append_right hk] at hnote
      have hout := hx.out m hm
      have hfirst := hx.within m hm k hk
      rw [h] at hout hfirst
      obtain ⟨names, hsecond⟩ := (hf a).beyond m' (hx.room_eq_none hm h) _ note hnote
      refine ⟨names, ?_⟩
      rw [(bind_of_done hfirst).1, hsecond, hout, List.take_append, List.take_of_length_le hk]
      simp
  · rw [(bind_of_stops (f := f) h ho).2] at hnote ⊢
    exact beyond_bind_first hx hm hnote

end

theorem sound_bind (hx : x.Sound) (hf : ∀ a, (f a).Sound) : (x >>= f).Sound where
  out _ hm := out_bind hx hm hf
  within _ hm _ hk := within_bind hx hm hf hk
  beyond _ hm _ _ hnote := beyond_bind hx hm hf hnote

end

/-- A frame is closed also around an action that could not write. -/
theorem sound_inFrame {x : Noted τ Unit} (hx : x.Sound) (hgrows : Action.Grows x.act)
    (kind : FrameKind) : (inFrame kind x).Sound := by
  have hact : ∀ m, (inFrame kind x).act m = ((x.act { m with names := m.names.push kind }).1,
      { (x.act { m with names := m.names.push kind }).2 with names := m.names }) :=
    fun m => Action.inFrame_apply hgrows kind m
  constructor
  · intro m hm
    rw [hact m]
    exact hx.out { m with names := m.names.push kind } hm
  · intro m hm k hk
    have hinside := hx.within { m with names := m.names.push kind } hm k hk
    rw [hact m, hact (m.withRoom (some k))]
    rw [Machine.withRoom] at hinside
    simp only [Machine.withRoom, hinside]
    rfl
  · intro m hm k note hnote
    obtain ⟨names, hinside⟩ := hx.beyond { m with names := m.names.push kind } hm k note hnote
    refine ⟨m.names, ?_⟩
    rw [hact (m.withRoom (some k))]
    rw [Machine.withRoom] at hinside
    simp only [Machine.withRoom, hinside]
    rfl

theorem forEach_cons (act : α → Noted τ Unit) (a : α) (as : List α) :
    forEach act (a :: as) = (do act a; forEach act as) := by
  rw [forEach, Action.forEach_cons]
  rfl

theorem sound_forEach {act : α → Noted τ Unit} (hact : ∀ a, (act a).Sound) (as : List α) :
    (forEach act as).Sound := by
  induction as with
  | nil => exact sound_silently (Action.silent_ofOutcome (.done ()))
  | cons a as ih =>
    rw [forEach_cons]
    exact sound_bind (hact a) fun _ => ih

theorem countUp_succ (act : Float → Noted τ Unit) (stop step : Float) (bound : Nat) (i : Float) :
    countUp act stop step (bound + 1) i
      = if i ≤ stop then (do act i; countUp act stop step bound (i + step)) else pure () := by
  rw [countUp, Action.countUp_succ]
  split
  · next hi =>
    have hnotes : notesOfCount act stop step (bound + 1) i
        = (do act i; countUp act stop step bound (i + step) : Noted τ Unit).notes := by
      funext m
      rw [notesOfCount, if_pos hi]
      rfl
    rw [hnotes]
    rfl
  · next hi =>
    have hnotes : notesOfCount act stop step (bound + 1) i = fun _ => [] := by
      funext m
      rw [notesOfCount, if_neg hi]
    rw [hnotes]
    rfl

theorem sound_countUp {act : Float → Noted τ Unit} (hact : ∀ i, (act i).Sound)
    (stop step : Float) (bound : Nat) (i : Float) : (countUp act stop step bound i).Sound := by
  induction bound generalizing i with
  | zero =>
    have hsilent : Action.Silent (Action.countUp (fun i => (act i).act) stop step 0 i) := by
      rw [Action.countUp_zero]
      split
      · exact Action.silent_ofOutcome _
      · exact Action.silent_ofOutcome (.done ())
    exact sound_silently hsilent
  | succ bound ih =>
    rw [countUp_succ]
    split
    · exact sound_bind (hact i) fun _ => ih (i + step)
    · exact sound_silently (Action.silent_ofOutcome (.done ()))

end Noted

/-! ### Statements with notes -/

namespace Stmt

/-- A counting loop around `body`, with notes. -/
def notedCount (bound : Nat) (start stop : Expr τ) (var : Ident τ) (step : Expr τ)
    (body : Noted τ Unit) : Noted τ Unit := do
  let a ← Noted.silently (start.evalNumber bound)
  let b ← Noted.silently (stop.evalNumber bound)
  let s ← Noted.silently (step.evalNumber bound)
  Noted.inFrame .loop do
    Noted.silently (Action.bindNew var (.value (.scalar a)))
    Noted.countUp (fun i => do
      Noted.silently (Action.assign var (.scalar i))
      Noted.inFrame .block body) b s bound a

/-- A loop over a list around `body`, with notes. -/
def notedEach (bound : Nat) (var : Ident τ) (source : Expr τ) (body : Noted τ Unit) :
    Noted τ Unit := do
  match ← Noted.silently (source.evalNow bound) with
  | .scalar x =>
    Noted.silently (Action.raise .expectedList "" source.mark
      ("for-loop over " ++ (Value.scalar x).render))
  | .list [] => Noted.silently (Action.raise .emptyList "" source.mark "")
  | .list (v :: vs) =>
    Noted.inFrame .loop do
      Noted.silently (Action.bindNew var (.value v))
      Noted.forEach (fun w => do
        Noted.inFrame .block body
        Noted.silently (Action.assign var w)) vs

mutual

/-- A statement, with notes. -/
def noted (bound : Nat) : Stmt τ → Noted τ Unit
  | print m e => do
    let v ← Noted.silently (e.evalNow bound)
    Noted.printLine m v.render
  | count _ a b i s body => notedCount bound a b i s (notedAll bound body)
  | each _ i e body => notedEach bound i e (notedAll bound body)
  | block _ body => Noted.inFrame .block (notedAll bound body)
  | s => Noted.silently (s.run bound)

/-- Statements in order, up to the first that fails, with notes. -/
def notedAll (bound : Nat) : List (Stmt τ) → Noted τ Unit
  | [] => pure ()
  | s :: ss => do
    noted bound s
    notedAll bound ss

end

theorem act_notedCount (bound : Nat) (start stop : Expr τ) (var : Ident τ) (step : Expr τ)
    (body : Noted τ Unit) : (notedCount bound start stop var step body).act
      = runCount bound start stop var step body.act := rfl

theorem act_notedEach (bound : Nat) (var : Ident τ) (source : Expr τ) (body : Noted τ Unit) :
    (notedEach bound var source body).act = runEach bound var source body.act := by
  show (source.evalNow bound >>= _) = (source.evalNow bound >>= _)
  congr 1
  funext v
  split <;> rfl

mutual

/-- The notes do not change what a statement does. -/
theorem act_noted (bound : Nat) : (s : Stmt τ) → (s.noted bound).act = s.run bound
  | declare _ _ _ => rfl
  | define _ _ _ => rfl
  | print _ _ => rfl
  | count _ a b i s body => by
    rw [noted, run, act_notedCount, act_notedAll bound body]
  | each _ i e body => by
    rw [noted, run, act_notedEach, act_notedAll bound body]
  | block _ body => by
    rw [noted, run, Noted.inFrame, act_notedAll bound body]
  | unpack _ _ _ => rfl

theorem act_notedAll (bound : Nat) :
    (ss : List (Stmt τ)) → (notedAll bound ss).act = runAll bound ss
  | [] => rfl
  | s :: ss => by
    show ((noted bound s).act >>= fun _ => (notedAll bound ss).act) = _
    rw [act_noted bound s, act_notedAll bound ss, runAll]

end

open ListCalc.Action

theorem silent_evalNumber (bound : Nat) (e : Expr τ) : Silent (e.evalNumber bound) := by
  refine silent_bind (silent_query _) fun v => ?_
  cases v with
  | scalar x => exact silent_ofOutcome (.done x)
  | list vs => exact silent_ofOutcome _

theorem silent_runDeclare (bound : Nat) (x : Ident τ) (e : Expr τ) :
    Silent (runDeclare bound x e) :=
  silent_bind (silent_refuseTaken x) fun _ =>
    silent_bind (silent_query _) fun _ => silent_bindNew x _

theorem silent_runDefine (f : Ident τ) (params : List (Ident τ)) (body : Expr τ) :
    Silent (runDefine f params body) := by
  refine silent_bind (silent_refuseTaken f) fun _ => ?_
  split
  · exact silent_ofOutcome _
  · exact silent_bindNew f _

theorem silent_runPair (bound : Nat) (pair : Expr τ × Expr τ) : Silent (runPair bound pair) := by
  rw [runPair]
  split
  · exact silent_runDeclare bound _ _
  · exact silent_ofOutcome _

theorem silent_runUnpack (bound : Nat) (mark : τ) (names values : Expr τ) :
    Silent (runUnpack bound mark names values) := by
  unfold runUnpack
  split
  · split
    · exact silent_forEach (silent_runPair bound) _
    · exact silent_ofOutcome _
  · exact silent_ofOutcome _
  · exact silent_ofOutcome _

/-- The notes of a counting loop are sound if those of its body are. -/
theorem sound_notedCount (bound : Nat) (start stop : Expr τ) (var : Ident τ) (step : Expr τ)
    {body : Noted τ Unit} (hbody : body.Sound) (hgrows : Grows body.act) :
    (notedCount bound start stop var step body).Sound := by
  refine Noted.sound_bind (Noted.sound_silently (silent_evalNumber bound start)) fun a => ?_
  refine Noted.sound_bind (Noted.sound_silently (silent_evalNumber bound stop)) fun b => ?_
  refine Noted.sound_bind (Noted.sound_silently (silent_evalNumber bound step)) fun s => ?_
  refine Noted.sound_inFrame ?_ (grows_countTurns hgrows var a b s bound) .loop
  refine Noted.sound_bind (Noted.sound_silently (silent_bindNew var _)) fun _ => ?_
  refine Noted.sound_countUp (fun i => ?_) b s bound a
  refine Noted.sound_bind (Noted.sound_silently (silent_assign var _)) fun _ => ?_
  exact Noted.sound_inFrame hbody hgrows .block

/-- The notes of a loop over a list are sound if those of its body are. -/
theorem sound_notedEach (bound : Nat) (var : Ident τ) (source : Expr τ) {body : Noted τ Unit}
    (hbody : body.Sound) (hgrows : Grows body.act) :
    (notedEach bound var source body).Sound := by
  refine Noted.sound_bind (Noted.sound_silently (silent_query _)) fun v => ?_
  split
  · exact Noted.sound_silently (silent_ofOutcome _)
  · exact Noted.sound_silently (silent_ofOutcome _)
  · next v vs =>
    refine Noted.sound_inFrame ?_ (grows_listTurns hgrows var v vs) .loop
    refine Noted.sound_bind (Noted.sound_silently (silent_bindNew var _)) fun _ => ?_
    refine Noted.sound_forEach (fun w => ?_) vs
    refine Noted.sound_bind (Noted.sound_inFrame hbody hgrows .block) fun _ => ?_
    exact Noted.sound_silently (silent_assign var w)

theorem grows_notedAll (bound : Nat) (ss : List (Stmt τ)) : Grows (notedAll bound ss).act := by
  rw [act_notedAll]
  exact grows_runAll bound ss

mutual

/-- The notes of a statement are sound. -/
theorem sound_noted (bound : Nat) : (s : Stmt τ) → (s.noted bound).Sound
  | declare _ x e => Noted.sound_silently (silent_runDeclare bound x e)
  | define f params body => Noted.sound_silently (silent_runDefine f params body)
  | print m _ =>
    Noted.sound_bind (Noted.sound_silently (silent_query _)) fun _ => Noted.sound_printLine m _
  | count _ a b i s body =>
    sound_notedCount bound a b i s (sound_notedAll bound body) (grows_notedAll bound body)
  | each _ i e body =>
    sound_notedEach bound i e (sound_notedAll bound body) (grows_notedAll bound body)
  | block _ body =>
    Noted.sound_inFrame (sound_notedAll bound body) (grows_notedAll bound body) .block
  | unpack m names values => Noted.sound_silently (silent_runUnpack bound m names values)

/-- The notes of statements in order are sound. -/
theorem sound_notedAll (bound : Nat) : (ss : List (Stmt τ)) → (notedAll bound ss).Sound
  | [] => Noted.sound_silently (silent_ofOutcome (.done ()))
  | s :: ss => Noted.sound_bind (sound_noted bound s) fun _ => sound_notedAll bound ss

end

end Stmt

/-! ### Programs -/

/-- Two runs of a program: `full` with a writer that never fails, and `cut` with one that fails
behind `k` lines.  The notes list what `full` writes, each line with the mark of the statement
that prints it. -/
structure CutShort (k : Nat) (notes : List (τ × String))
    (full cut : Outcome τ Unit × Session τ) : Prop where
  /-- the notes are on the lines of the full run -/
  lines : full.2.machine.out.lines = notes.map Prod.snd
  /-- with room for all lines, the two runs are the same -/
  within : full.2.machine.out.lines.length ≤ k →
    cut.1 = full.1 ∧ cut.2.machine.out.lines = full.2.machine.out.lines ∧
      cut.2.machine.names = full.2.machine.names ∧ cut.2.isOpen = full.2.isOpen
  /-- otherwise the second one ends in front of line `k + 1`, at the statement that prints it -/
  beyond : k < full.2.machine.out.lines.length →
    cut.2.machine.out.lines = full.2.machine.out.lines.take k ∧
      ∃ mark line, notes[k]? = some (mark, line) ∧ cut.1 = .failed (.write mark "broken pipe")

theorem cutShort_of_sound {x : Noted τ Unit} (hx : x.Sound) (names : Names τ) (isOpen : Bool)
    (k : Nat) :
    let full := x.act ⟨names, .fresh none⟩
    let cut := x.act ⟨names, .fresh (some k)⟩
    CutShort k (x.notes ⟨names, .fresh none⟩) (full.1, ⟨full.2, isOpen⟩)
      (cut.1, ⟨cut.2, isOpen⟩) := by
  intro full cut
  have hout := hx.out ⟨names, .fresh none⟩ rfl
  have hlines : full.2.out.lines = (x.notes ⟨names, .fresh none⟩).map Prod.snd := by
    show full.2.out.written.reverse = _
    rw [show full.2.out = _ from hout]
    simp [Writer.fresh]
  refine ⟨hlines, ?_, ?_⟩
  · intro hk
    rw [hlines, List.length_map] at hk
    have hcut : cut = _ := hx.within ⟨names, .fresh none⟩ rfl k hk
    rw [hcut]
    exact ⟨rfl, rfl, rfl, rfl⟩
  · intro hk
    rw [hlines, List.length_map] at hk
    obtain ⟨names', hcut⟩ := hx.beyond ⟨names, .fresh none⟩ rfl k _ (List.getElem?_eq_getElem hk)
    have hcut : cut = _ := hcut
    rw [hcut]
    refine ⟨?_, _, _, List.getElem?_eq_getElem hk, rfl⟩
    show (Writer.mk _ _).written.reverse = full.2.out.lines.take k
    rw [hlines, ← List.map_take]
    simp [Writer.fresh]

namespace Session

/-- The lines that a program writes in a frame of its own, with a writer that never fails. -/
def interpretNotes (bound : Nat) (p : Program τ) (s : Session τ) : List (τ × String) :=
  (Noted.inFrame .program (Stmt.notedAll bound p)).notes (s.withWriter (.fresh none)).machine

/-- The lines that a program writes in the lasting frame, with a writer that never fails. -/
def executeNotes (bound : Nat) (p : Program τ) (s : Session τ) : List (τ × String) :=
  (Stmt.notedAll bound p).notes (s.withWriter (.fresh none)).opened.machine

theorem opened_withWriter (s : Session τ) (out : Writer) :
    (s.withWriter out).opened = ⟨⟨s.opened.machine.names, out⟩, s.opened.isOpen⟩ := by
  obtain ⟨machine, isOpen⟩ := s
  cases isOpen <;> rfl

/-- **A writer that fails only cuts a run short.**  Let a program run in a frame of its own or in
the lasting one, from any state of a session, with a writer that never fails and with one that
fails behind `k` lines.  If the first run writes no more than `k` lines, the second one is the
same.  Otherwise the second one writes the first `k` of these lines and fails at the mark of the
statement that prints line `k + 1` in the first run. -/
theorem cutShort (bound k : Nat) (p : Program τ) (s : Session τ) :
    CutShort k (s.interpretNotes bound p) ((s.withWriter (.fresh none)).interpret bound p)
      ((s.withWriter (.fresh (some k))).interpret bound p) ∧
    CutShort k (s.executeNotes bound p) ((s.withWriter (.fresh none)).execute bound p)
      ((s.withWriter (.fresh (some k))).execute bound p) := by
  have hsound := Stmt.sound_notedAll bound p
  have hact := Stmt.act_notedAll bound p
  constructor
  · have hframe := Noted.sound_inFrame hsound (Stmt.grows_notedAll bound p) .program
    have hcut := cutShort_of_sound hframe s.machine.names s.isOpen k
    rw [Noted.inFrame, hact] at hcut
    exact hcut
  · have hcut := cutShort_of_sound hsound s.opened.machine.names s.opened.isOpen k
    rw [hact] at hcut
    simp only [executeNotes, execute, opened_withWriter]
    exact hcut

/-- A loop with two turns and a statement behind it: three lines, two of them from one statement. -/
example : (start (.fresh none)).interpretNotes 1
    [.each 0 ⟨1, "x"⟩ (.list 2 [.list 3 [], .list 4 [], .list 5 []]) [.print 6 (.name ⟨7, "x"⟩)],
      .print 8 (.list 9 [.list 10 []])]
    = [(6, "[]"), (6, "[]"), (8, "[[]]")] := by
  decide +kernel

end Session

end ListCalc
