/-
Sessions only grow.

A session is used by calls: programs are run in it, expressions are evaluated,
and it is closed.  `Reachable` collects the states that calls lead to.  A program
that runs in the lasting frame leaves all names that are bound as they are, and
adds the names of its declarations up to the statement at which it stops:

* `Stmt.declares` — the names that a statement declares if it is done;
* `Stmt.Leaves` — the names that it leaves behind if it stops early: an unpacking
  keeps the pairs before the one at which it stops, and no other statement keeps
  anything;
* `Session.execute_records` — the frame records these names, in order, and none
  that was declared inside a block or a loop.
-/
import ListCalc.Proofs.Frames

namespace ListCalc

variable {τ α : Type}

/-! ### Calls -/

/-- A use of a session. -/
inductive Call (τ : Type) where
  | interpret (bound : Nat) (p : Program τ)
  | execute (bound : Nat) (p : Program τ)
  | evaluate (bound : Nat) (e : Expr τ)
  | close

namespace Session

/-- The outcome of a call, without the value of an expression, and the session after it. -/
def perform (s : Session τ) : Call τ → Outcome τ Unit × Session τ
  | .interpret bound p => s.interpret bound p
  | .execute bound p => s.execute bound p
  | .evaluate bound e => ((do let _ ← s.evaluate bound e), s)
  | .close => s.close

/-- The states of a session after calls of a kind.  The writer is any one at the start, and may be
any other one at every later call. -/
inductive Reachable (allowed : Call τ → Prop) : Session τ → Prop where
  | start (out : Writer) : Reachable allowed (.start out)
  | withWriter {s : Session τ} (h : Reachable allowed s) (out : Writer) :
      Reachable allowed (s.withWriter out)
  | step {s : Session τ} (h : Reachable allowed s) {c : Call τ} (hc : allowed c) :
      Reachable allowed (s.perform c).2

/-- The open frames: the lasting one, or none. -/
def HasLastingFrame (s : Session τ) : Prop :=
  if s.isOpen then ∃ names, s.machine.names.frames = [⟨.program, names⟩]
  else s.machine.names.frames = []

end Session

/-! ### Runs that stop early -/

/-- The outcome is not a normal end. -/
def Outcome.Stops (o : Outcome τ α) : Prop := ∀ a, o ≠ .done a

theorem Outcome.stops_failed (e : Failure τ) : (Outcome.failed e : Outcome τ α).Stops := by
  intro a h
  cases h

theorem Outcome.stops_unfinished : (Outcome.unfinished : Outcome τ α).Stops := by
  intro a h
  cases h

namespace Action

/-- An action on some elements is done with all of them, or stops at the first on which it is
not done. -/
theorem forEach_cases (act : α → Action τ Unit) (as : List α) (m : Machine τ) :
    (∃ m', forEach act as m = (.done (), m')) ∨
    (∃ front a rest m₁, as = front ++ a :: rest ∧ forEach act front m = (.done (), m₁) ∧
      (act a m₁).1.Stops ∧ forEach act as m = act a m₁) := by
  induction as generalizing m with
  | nil => exact .inl ⟨m, rfl⟩
  | cons a as ih =>
    have hstop {o : Outcome τ Unit} {m' : Machine τ} (ha : act a m = (o, m')) (ho : o.Stops)
        (hall : forEach act (a :: as) m = (o, m')) : ∃ front b rest m₁,
        a :: as = front ++ b :: rest ∧ forEach act front m = (.done (), m₁) ∧
          (act b m₁).1.Stops ∧ forEach act (a :: as) m = act b m₁ :=
      ⟨[], a, as, m, rfl, rfl, by rw [ha]; exact ho, by rw [hall, ha]⟩
    rcases ha : act a m with ⟨_ | e | _, m'⟩
    · have hstep {bs : List α} : forEach act (a :: bs) m = forEach act bs m' := by
        rw [forEach, ha]
      rcases ih m' with ⟨m'', hdone⟩ | ⟨front, b, rest, m₁, rfl, hfront, hb, hall⟩
      · exact .inl ⟨m'', hstep.trans hdone⟩
      · exact .inr ⟨a :: front, b, rest, m₁, rfl, hstep.trans hfront, hb, hstep.trans hall⟩
    · exact .inr (hstop ha (Outcome.stops_failed e) (by rw [forEach, ha]))
    · exact .inr (hstop ha Outcome.stops_unfinished (by rw [forEach, ha]))

/-- The names that are recorded element by element are recorded in the order of the elements. -/
theorem records_forEach {act : α → Action τ Unit} {names : α → List String}
    (hact : ∀ a m m', act a m = (.done (), m') → m.names.Records (names a) m'.names)
    {as : List α} {m m' : Machine τ} (h : forEach act as m = (.done (), m')) :
    m.names.Records (as.flatMap names) m'.names := by
  induction as generalizing m with
  | nil =>
    obtain ⟨-, rfl⟩ := Prod.mk.inj h
    exact Scope.records_refl _
  | cons a as ih =>
    rw [forEach] at h
    split at h
    · next m₁ ha =>
      rw [List.flatMap_cons]
      exact (hact a m m₁ ha).trans (ih h)
    · next hstop =>
      exact absurd h (hstop () m')

/-! ### Actions that declare -/

/-- The action is done and records the names, or it stops and leaves the scope as it was. -/
def Declares (x : Action τ Unit) (names : List String) : Prop :=
  ∀ m, (∃ m', x m = (.done (), m') ∧ m.names.Records names m'.names) ∨
    ((x m).1.Stops ∧ (x m).2.names = m.names)

variable {names : List String}

theorem declares_bindNew (id : Ident τ) (b : Binding τ) : Declares (bindNew id b) [id.name] := by
  intro m
  obtain ⟨e, he⟩ | ⟨hfree, flag, names, hput, hdone⟩ := bindNew_cases id b m
  · refine .inr ?_
    rw [he]
    exact ⟨Outcome.stops_failed e, rfl⟩
  · exact .inl ⟨_, hdone, Scope.records_put hfree hput⟩

/-- What restores the scope declares nothing. -/
theorem Restores.declares {x : Action τ Unit} (hx : Restores x) : Declares x [] := by
  intro m
  have hm := hx m
  rcases h : x m with ⟨u | e | _, m'⟩
  · refine .inl ⟨m', rfl, ?_⟩
    rw [h] at hm
    rw [hm]
    exact Scope.records_refl _
  · rw [h] at hm
    exact .inr ⟨Outcome.stops_failed e, hm⟩
  · rw [h] at hm
    exact .inr ⟨Outcome.stops_unfinished, hm⟩

/-- A failure that is raised stands for any declaration that did not come about. -/
theorem declares_raise (kind : RuntimeError.Kind) (name : String) (mark : τ) (detail : String)
    (names : List String) : Declares (raise kind name mark detail) names :=
  fun _ => .inr ⟨Outcome.stops_failed _, rfl⟩

/-- In front of a declaration may stand what restores the scope. -/
theorem declares_bind {x : Action τ α} {f : α → Action τ Unit} (hx : Restores x)
    (hf : ∀ a, Declares (f a) names) : Declares (x >>= f) names := by
  intro m
  have hm := hx m
  rw [bind_apply]
  rcases h : x m with ⟨a | e | _, m'⟩
  · rw [h] at hm
    rw [← hm]
    exact hf a m'
  · rw [h] at hm
    exact .inr ⟨Outcome.stops_failed e, hm⟩
  · rw [h] at hm
    exact .inr ⟨Outcome.stops_unfinished, hm⟩

end Action

/-- The name, if the expression is one. -/
def Expr.target : Expr τ → List String
  | name id => [id.name]
  | _ => []

namespace Stmt

/-- Running statements is acting on each of them. -/
theorem runAll_eq_forEach (bound : Nat) (ss : List (Stmt τ)) :
    runAll bound ss = Action.forEach (run bound) ss := by
  induction ss with
  | nil => rfl
  | cons s ss ih => rw [runAll, ih, Action.forEach_cons]

/-- The names that a statement declares if it is done.  The names in a body are not its own. -/
def declares : Stmt τ → List String
  | declare _ x _ => [x.name]
  | define f _ _ => [f.name]
  | unpack _ (.list _ xs) _ => xs.flatMap Expr.target
  | _ => []

/-- The names that a statement leaves behind if it is run in the state `m` and stops early.  An
unpacking of as many values as names leaves those of the pairs before the first that is not done;
all else leaves none. -/
def Leaves (bound : Nat) (m : Machine τ) : Stmt τ → List String → Prop
  | unpack _ (.list _ xs) (.list _ es), names =>
    if xs.length = es.length then
      ∃ front pair rest m', xs.zip es = front ++ pair :: rest ∧
        Action.forEach (runPair bound) front m = (.done (), m') ∧
        (runPair bound pair m').1.Stops ∧ names = front.flatMap fun p => p.1.target
    else names = []
  | _, names => names = []

open ListCalc.Action

theorem declares_runDeclare (bound : Nat) (x : Ident τ) (e : Expr τ) :
    Declares (runDeclare bound x e) [x.name] :=
  declares_bind (restores_refuseTaken x) fun _ =>
    declares_bind (restores_query _) fun _ => declares_bindNew x _

theorem declares_runDefine (f : Ident τ) (params : List (Ident τ)) (body : Expr τ) :
    Declares (runDefine f params body) [f.name] := by
  refine declares_bind (restores_refuseTaken f) fun _ => ?_
  split
  · exact declares_raise _ _ _ _ _
  · exact declares_bindNew f _

theorem declares_runPair (bound : Nat) (pair : Expr τ × Expr τ) :
    Declares (runPair bound pair) pair.1.target := by
  rw [runPair]
  split
  · next x hx =>
    rw [hx]
    exact declares_runDeclare bound x _
  · exact declares_raise _ _ _ _ _

/-- A statement is done and records its declarations, or it stops and records what it leaves. -/
def Accounts (bound : Nat) (m : Machine τ) (s : Stmt τ) : Prop :=
  (∃ m', s.run bound m = (.done (), m') ∧ m.names.Records s.declares m'.names) ∨
  ((s.run bound m).1.Stops ∧
    ∃ left, s.Leaves bound m left ∧ m.names.Records left (s.run bound m).2.names)

/-- A statement other than an unpacking declares what it says or leaves nothing. -/
theorem accounts_of_declares {bound : Nat} {s : Stmt τ} (hrun : Declares (s.run bound) s.declares)
    (m : Machine τ) (hleaves : s.Leaves bound m []) : s.Accounts bound m := by
  rcases hrun m with hdone | ⟨hstops, hnames⟩
  · exact .inl hdone
  · refine .inr ⟨hstops, [], hleaves, ?_⟩
    rw [hnames]
    exact Scope.records_refl _

theorem flatMap_target_zip {xs es : List (Expr τ)} (h : xs.length = es.length) :
    (xs.zip es).flatMap (fun p => p.1.target) = xs.flatMap Expr.target := by
  rw [← List.flatMap_map, List.map_fst_zip (Nat.le_of_eq h)]

/-- An unpacking into as many names keeps the pairs before the one at which it stops. -/
theorem accounts_unpack_lists (bound : Nat) (mark : τ) {m₁ m₂ : τ} {xs es : List (Expr τ)}
    (hlen : xs.length = es.length) (m : Machine τ) :
    (unpack mark (.list m₁ xs) (.list m₂ es)).Accounts bound m := by
  have hrun : (unpack mark (.list m₁ xs) (.list m₂ es)).run bound
      = forEach (runPair bound) (xs.zip es) := if_pos hlen
  have hpair : ∀ (p : Expr τ × Expr τ) m m', runPair bound p m = (.done (), m') →
      m.names.Records p.1.target m'.names := by
    intro p m m' hdone
    rcases declares_runPair bound p m with ⟨m'', heq, hrecords⟩ | ⟨hstops, -⟩
    · obtain ⟨-, rfl⟩ := Prod.mk.inj (hdone.symm.trans heq)
      exact hrecords
    · rw [hdone] at hstops
      exact absurd rfl (hstops ())
  rw [Accounts, hrun]
  rcases forEach_cases (runPair bound) (xs.zip es) m with
    ⟨m', hdone⟩ | ⟨front, pair, rest, m', hsplit, hfront, hstops, hall⟩
  · have hrecords := records_forEach hpair hdone
    rw [flatMap_target_zip hlen] at hrecords
    exact .inl ⟨m', hdone, hrecords⟩
  · rw [hall]
    refine .inr ⟨hstops, front.flatMap fun p => p.1.target, ?_, ?_⟩
    · exact (if_pos hlen).mpr ⟨front, pair, rest, m', hsplit, hfront, hstops, rfl⟩
    · -- The pair that stops leaves the scope as the others have left it.
      rcases declares_runPair bound pair m' with ⟨m'', hdone, -⟩ | ⟨-, hnames⟩
      · rw [hdone] at hstops
        exact absurd rfl (hstops ())
      · rw [hnames]
        exact records_forEach hpair hfront

theorem accounts_unpack (bound : Nat) (mark : τ) (names values : Expr τ) (m : Machine τ) :
    (unpack mark names values).Accounts bound m := by
  cases names with
  | list m₁ xs =>
    cases values with
    | list m₂ es =>
      by_cases hlen : xs.length = es.length
      · exact accounts_unpack_lists bound mark hlen m
      · refine accounts_of_declares ?_ m (if_neg hlen |>.mpr rfl)
        show Declares (ite _ _ _) _
        rw [if_neg hlen]
        exact declares_raise _ _ _ _ _
    | _ =>
      refine accounts_of_declares ?_ m rfl
      exact declares_raise _ _ _ _ _
  | _ =>
    refine accounts_of_declares ?_ m rfl
    exact declares_raise _ _ _ _ _

/-- **A statement accounts for the names it adds**, whether it is done or stops early. -/
theorem accounts (bound : Nat) (s : Stmt τ) (m : Machine τ) : s.Accounts bound m := by
  have hrun := grows_runAll (τ := τ) bound
  cases s with
  | declare mark x e =>
    refine accounts_of_declares ?_ m rfl
    exact declares_runDeclare bound x e
  | define f params body =>
    refine accounts_of_declares ?_ m rfl
    exact declares_runDefine f params body
  | print mark e =>
    refine accounts_of_declares ?_ m rfl
    exact (restores_bind (restores_query _) fun _ => restores_printLine mark _).declares
  | count mark a b i s body =>
    refine accounts_of_declares ?_ m rfl
    exact (restores_runCount bound a b i s (hrun body)).declares
  | each mark i e body =>
    refine accounts_of_declares ?_ m rfl
    exact (restores_runEach bound i e (hrun body)).declares
  | block mark body =>
    refine accounts_of_declares ?_ m rfl
    exact (restores_inFrame (hrun body) .block).declares
  | unpack mark names values => exact accounts_unpack bound mark names values m

/-- Statements in order add the names of those that are done, and what the one leaves at which
they stop. -/
theorem runAll_records (bound : Nat) (ss : List (Stmt τ)) (m : Machine τ) :
    (∃ m', runAll bound ss m = (.done (), m') ∧
      m.names.Records (ss.flatMap declares) m'.names) ∨
    (∃ front s rest m₁ left, ss = front ++ s :: rest ∧ runAll bound front m = (.done (), m₁) ∧
      (s.run bound m₁).1.Stops ∧ runAll bound ss m = s.run bound m₁ ∧ s.Leaves bound m₁ left ∧
      m.names.Records (front.flatMap declares ++ left) (s.run bound m₁).2.names) := by
  have hdeclares : ∀ (s : Stmt τ) m m', s.run bound m = (.done (), m') →
      m.names.Records s.declares m'.names := by
    intro s m m' hdone
    rcases accounts bound s m with ⟨m'', heq, hrecords⟩ | ⟨hstops, -⟩
    · obtain ⟨-, rfl⟩ := Prod.mk.inj (hdone.symm.trans heq)
      exact hrecords
    · rw [hdone] at hstops
      exact absurd rfl (hstops ())
  simp only [runAll_eq_forEach]
  rcases forEach_cases (run bound) ss m with
    ⟨m', hdone⟩ | ⟨front, s, rest, m₁, rfl, hfront, hstops, hall⟩
  · exact .inl ⟨m', hdone, records_forEach hdeclares hdone⟩
  · rcases accounts bound s m₁ with ⟨m', hdone, -⟩ | ⟨-, left, hleaves, hrecords⟩
    · rw [hdone] at hstops
      exact absurd rfl (hstops ())
    · exact .inr ⟨front, s, rest, m₁, left, rfl, hfront, hstops, hall, hleaves,
        (records_forEach hdeclares hfront).trans hrecords⟩

end Stmt

/-! ### Sessions -/

namespace Session

variable {allowed : Call τ → Prop} {s : Session τ}

/-- The names that the open frames record. -/
def recorded (s : Session τ) : List String := s.machine.names.frames.flatMap Frame.names

/-- With the lasting frame open, nothing but an empty frame has come in addition. -/
theorem HasLastingFrame.opened (h : s.HasLastingFrame) :
    s.opened.machine.names.frames = [⟨.program, s.recorded⟩] := by
  rw [HasLastingFrame] at h
  rw [Session.opened, recorded]
  split at h
  · next hopen =>
    obtain ⟨names, hframes⟩ := h
    rw [if_pos hopen, hframes]
    simp
  · next hclosed =>
    rw [if_neg hclosed]
    simp [Scope.push, h]

theorem get?_opened (s : Session τ) (name : String) :
    s.opened.machine.names.get? name = s.machine.names.get? name := by
  rw [Session.opened]
  split <;> rfl

theorem has_opened (s : Session τ) (name : String) :
    s.opened.machine.names.has name = s.machine.names.has name := by
  rw [Scope.has, Scope.has, get?_opened]

theorem isOpen_execute (bound : Nat) (p : Program τ) (s : Session τ) :
    (s.execute bound p).2.isOpen = true := by
  show s.opened.isOpen = true
  rw [Session.opened]
  split
  · assumption
  · rfl

theorem HasLastingFrame.execute (h : s.HasLastingFrame) (bound : Nat) (p : Program τ) :
    (s.execute bound p).2.HasLastingFrame := by
  obtain ⟨added, hadded, hgrow⟩ := Stmt.grows_runAll bound p s.opened.machine
  have hrecords : s.opened.machine.names.Records (added.map Prod.fst).reverse
      (Stmt.runAll bound p s.opened.machine).2.names := ⟨added, hadded, hgrow, rfl⟩
  rw [HasLastingFrame, if_pos (isOpen_execute bound p s)]
  exact ⟨_, hrecords.frames_eq h.opened⟩

theorem HasLastingFrame.close (h : s.HasLastingFrame) : s.close.2.HasLastingFrame := by
  rw [Session.close]
  split
  · next hopen =>
    rw [HasLastingFrame, if_pos hopen] at h
    obtain ⟨names, hframes⟩ := h
    simp only [Scope.pop, hframes]
    rfl
  · exact h

/-- A call leaves the lasting frame open, or no frame at all. -/
theorem HasLastingFrame.perform (h : s.HasLastingFrame) (c : Call τ) :
    (s.perform c).2.HasLastingFrame := by
  cases c with
  | interpret bound p =>
    have hnames : (s.interpret bound p).2.machine.names = s.machine.names :=
      Action.restores_inFrame (Stmt.grows_runAll bound p) .program s.machine
    show if s.isOpen then ∃ names, (s.interpret bound p).2.machine.names.frames
      = [⟨.program, names⟩] else (s.interpret bound p).2.machine.names.frames = []
    rw [hnames]
    exact h
  | execute bound p => exact h.execute bound p
  | evaluate bound e => exact h
  | close => exact h.close

theorem Reachable.hasLastingFrame (h : s.Reachable allowed) : s.HasLastingFrame := by
  induction h with
  | start out => rfl
  | withWriter _ _ ih => exact ih
  | step _ _ ih => exact ih.perform _

/-- **A program adds its declarations to a session and changes nothing else.**  Whatever calls
have come before, and however the program ends, one frame is open afterwards, and every name that
was bound means what it meant.  The frame records some more names, and these are the ones that are
bound in addition.  If the program is done, they are the names that its statements declare, in
order.  Otherwise they are those of the statements before the first that stops, and then the names
that this one leaves behind. -/
theorem execute_records (hs : s.Reachable allowed) (bound : Nat) (p : Program τ) :
    ∃ added : List String,
      (s.execute bound p).2.machine.names.frames = [⟨.program, s.recorded ++ added⟩] ∧
      (∀ name b, s.machine.names.get? name = some b →
        (s.execute bound p).2.machine.names.get? name = some b) ∧
      (∀ name, (s.execute bound p).2.isDefined name = true ↔
        s.isDefined name = true ∨ name ∈ added) ∧
      (((s.execute bound p).1 = .done () ∧ added = p.flatMap Stmt.declares) ∨
        ∃ front stmt rest s₁ left, p = front ++ stmt :: rest ∧
          s.execute bound front = (.done (), s₁) ∧
          (stmt.run bound s₁.machine).1.Stops ∧
          s.execute bound p = ((stmt.run bound s₁.machine).1,
            { s₁ with machine := (stmt.run bound s₁.machine).2 }) ∧
          stmt.Leaves bound s₁.machine left ∧
          added = front.flatMap Stmt.declares ++ left) := by
  have hframe := hs.hasLastingFrame.opened
  -- What the run records is all that is added, on top of what was there.
  have hadded {added : List String} (h : s.opened.machine.names.Records added
      (Stmt.runAll bound p s.opened.machine).2.names) :
      (s.execute bound p).2.machine.names.frames = [⟨.program, s.recorded ++ added⟩] ∧
      (∀ name b, s.machine.names.get? name = some b →
        (s.execute bound p).2.machine.names.get? name = some b) ∧
      (∀ name, (s.execute bound p).2.isDefined name = true ↔
        s.isDefined name = true ∨ name ∈ added) := by
    refine ⟨h.frames_eq hframe, fun name b hb => ?_, fun name => ?_⟩
    · exact h.get?_of_some ((get?_opened s name).trans hb)
    · have hhas := h.has_iff name
      rw [has_opened] at hhas
      exact hhas
  rcases Stmt.runAll_records bound p s.opened.machine with
    ⟨m, hdone, hrecords⟩ |
    ⟨front, stmt, rest, m, left, rfl, hfront, hstops, hall, hleaves, hrecords⟩
  · have h : s.opened.machine.names.Records (p.flatMap Stmt.declares)
        (Stmt.runAll bound p s.opened.machine).2.names := by
      rw [hdone]
      exact hrecords
    obtain ⟨hframes, hbound, hdefined⟩ := hadded h
    refine ⟨_, hframes, hbound, hdefined, .inl ⟨?_, rfl⟩⟩
    rw [execute, hdone]
  · rw [← hall] at hrecords
    obtain ⟨hframes, hbound, hdefined⟩ := hadded hrecords
    refine ⟨_, hframes, hbound, hdefined, .inr ⟨front, stmt, rest, { s.opened with machine := m },
      left, rfl, ?_, hstops, ?_, hleaves, rfl⟩⟩
    · rw [execute, hfront]
    · rw [execute, hall]

/-- In a session that knows `f`, an unpacking stops at its second pair, behind a declaration and a
block with one of its own. -/
theorem execute_records_unpack :
    let name (x : String) : Ident Unit := ⟨(), x⟩
    let s := ((start (.fresh none)).perform
      (.execute 1 [.define (name "f") [name "x"] (.name (name "x"))])).2
    let p : Program Unit := [.declare () (name "a") (.list () []),
      .block () [.declare () (name "b") (.list () [])],
      .unpack () (.list () [.name (name "c"), .name (name "d")])
        (.list () [.call (name "f") [.name (name "a")], .name (name "y")]),
      .declare () (name "e") (.list () [])]
    s.Reachable (fun _ => True) ∧
      (s.execute 1 p).2.machine.names.frames = [⟨.program, ["f", "a", "c"]⟩] ∧
      ∀ x, (s.execute 1 p).2.isDefined x = true ↔ s.isDefined x = true ∨ x ∈ ["a", "c"] := by
  intro name s p
  have hs : s.Reachable (fun _ => True) := .step (.start _) trivial
  have hframes : (s.execute 1 p).2.machine.names.frames = [⟨.program, ["f", "a", "c"]⟩] := by
    decide +kernel
  obtain ⟨added, hadded, -, hdefined, -⟩ := execute_records hs 1 p
  have hrecorded : s.recorded = ["f"] := by decide +kernel
  obtain rfl : added = ["a", "c"] := by
    rw [hframes, hrecorded] at hadded
    simpa using hadded.symm
  exact ⟨hs, hframes, hdefined⟩

end Session

end ListCalc
