/-
Frames are closed behind every construct.

Every statement, whatever its outcome, leaves the scope grown at most: `Grows`.
So a frame that is opened around statements can be closed again, and what it
closes to is the scope that stood before: `Restores`.  The two carry each other
through blocks, counting loops and list loops.

* `grows_run`, `grows_runAll` — statements extend the scope in its innermost frame;
* `inFrame_apply` — a frame around them takes all of that back;
* `interpret_and_loops_restore` — a program, a block and a loop leave the scope as
  they found it, also when they fail at any depth.
-/
import ListCalc.Proofs.Action
import ListCalc.Proofs.Scope
import ListCalc.Session

namespace ListCalc

variable {τ α β : Type}

/-- A name that may be declared is free. -/
theorem Names.has_eq_false_of_not_isTaken {σ : Names τ} {name : String}
    (h : ¬ σ.isTaken name = true) : σ.has name = false := by
  rw [Names.isTaken, Bool.or_eq_true, not_or] at h
  exact Bool.not_eq_true _ ▸ h.2

namespace Action

/-- The scope afterwards is the scope before. -/
def Restores (x : Action τ α) : Prop :=
  ∀ m : Machine τ, (x m).2.names = m.names

/-- The scope afterwards extends the scope before. -/
def Grows (x : Action τ α) : Prop :=
  ∀ m : Machine τ, m.names.Extends (x m).2.names

theorem restores_ofOutcome (o : Outcome τ α) : Restores (ofOutcome o) :=
  fun _ => rfl

theorem restores_query (f : Names τ → Outcome τ α) : Restores (query f) :=
  fun _ => rfl

theorem restores_refuseTaken (id : Ident τ) : Restores (refuseTaken id) := by
  intro m
  rw [refuseTaken]
  split <;> rfl

theorem restores_printLine (mark : τ) (line : String) : Restores (printLine mark line) := by
  intro m
  rw [printLine]
  split <;> rfl

theorem restores_bind {x : Action τ α} {f : α → Action τ β} (hx : Restores x)
    (hf : ∀ a, Restores (f a)) : Restores (x >>= f) := fun m =>
  preserves_bind (P := fun m' => m'.names = m.names)
    (fun m' h => (hx m').trans h) (fun a m' h => (hf a m').trans h) m rfl

theorem Restores.grows {x : Action τ α} (hx : Restores x) : Grows x := by
  intro m
  rw [hx m]
  exact Scope.extends_refl _

theorem Restores.preserves {x : Action τ α} (hx : Restores x) (Q : Names τ → Prop) :
    Preserves (fun m => Q m.names) x := by
  intro m hm
  rw [hx m]
  exact hm

/-- An action that grows the scope keeps all that lies below the growth so far. -/
theorem Grows.preserves {x : Action τ α} (hx : Grows x) (s : Names τ) :
    Preserves (fun m => s.Extends m.names) x :=
  fun m h => h.trans (hx m)

theorem grows_bind {x : Action τ α} {f : α → Action τ β} (hx : Grows x)
    (hf : ∀ a, Grows (f a)) : Grows (x >>= f) := fun m =>
  preserves_bind (hx.preserves m.names) (fun a => (hf a).preserves m.names) m
    (Scope.extends_refl _)

theorem grows_forEach {act : α → Action τ Unit} (hact : ∀ a, Grows (act a)) (as : List α) :
    Grows (forEach act as) := fun m =>
  preserves_forEach (fun a (_ : a ∈ as) => (hact a).preserves m.names) m (Scope.extends_refl _)

/-- Binding a name either fails and changes nothing, or the name was free and is bound. -/
theorem bindNew_cases (id : Ident τ) (b : Binding τ) (m : Machine τ) :
    (∃ e, bindNew id b m = (.failed e, m)) ∨
    (m.names.has id.name = false ∧ ∃ flag names, m.names.put id.name b = .ok (flag, names) ∧
      bindNew id b m = (.done (), { m with names })) := by
  rw [bindNew]
  split
  · -- The name is reserved or bound.
    exact .inl ⟨_, rfl⟩
  · next htaken =>
    have hfree := Names.has_eq_false_of_not_isTaken htaken
    split
    · next hput => exact .inr ⟨hfree, _, _, hput, rfl⟩
    · -- There is no frame to record the name in.
      exact .inl ⟨_, rfl⟩

theorem grows_bindNew (id : Ident τ) (b : Binding τ) : Grows (bindNew id b) := by
  intro m
  obtain ⟨e, he⟩ | ⟨-, flag, names, hput, hdone⟩ := bindNew_cases id b m
  · rw [he]
    exact Scope.extends_refl _
  · rw [hdone]
    exact Scope.extends_put hput

/-- An action behind a new name grows the scope if it keeps whatever lies below that name. -/
theorem grows_bindNew_bind {id : Ident τ} {b : Binding τ} {k : Action τ Unit}
    (hk : ∀ s : Names τ, s.has id.name = false → Preserves (fun m => s.Extends m.names) k) :
    Grows (do bindNew id b; k) := by
  intro m
  rw [bind_apply]
  obtain ⟨e, he⟩ | ⟨hfree, flag, names, hput, hdone⟩ := bindNew_cases id b m
  · rw [he]
    exact Scope.extends_refl _
  · rw [hdone]
    exact hk m.names hfree _ (Scope.extends_put hput)

/-- A loop variable may be given new values without touching what lies below its frame. -/
theorem preserves_assign {s : Names τ} {id : Ident τ} (hfree : s.has id.name = false)
    (v : Value) : Preserves (fun m => s.Extends m.names) (assign id v) := by
  intro m h
  rw [assign]
  split
  · next hset => exact Scope.extends_set h hfree hset
  · exact h

/-- A frame around growth ends as its inside does and leaves the scope as it was. -/
theorem inFrame_apply {x : Action τ Unit} (hx : Grows x) (kind : FrameKind) (m : Machine τ) :
    inFrame kind x m = ((x { m with names := m.names.push kind }).1,
      { (x { m with names := m.names.push kind }).2 with names := m.names }) := by
  obtain ⟨names, hpop⟩ := Scope.pop_of_extends_push (hx { m with names := m.names.push kind })
  rw [inFrame]
  simp only [hpop]

theorem restores_inFrame {x : Action τ Unit} (hx : Grows x) (kind : FrameKind) :
    Restores (inFrame kind x) := fun m => by
  rw [inFrame_apply hx kind m]

end Action

namespace Stmt

open ListCalc.Action

theorem restores_evalNumber (bound : Nat) (e : Expr τ) : Restores (e.evalNumber bound) := by
  refine restores_bind (restores_query _) fun v => ?_
  cases v with
  | scalar x => exact restores_ofOutcome _
  | list vs => exact restores_ofOutcome _

theorem grows_runDeclare (bound : Nat) (x : Ident τ) (e : Expr τ) :
    Grows (runDeclare bound x e) :=
  grows_bind (restores_refuseTaken x).grows fun _ =>
    grows_bind (restores_query _).grows fun _ => grows_bindNew x _

theorem grows_runDefine (f : Ident τ) (params : List (Ident τ)) (body : Expr τ) :
    Grows (runDefine f params body) := by
  refine grows_bind (restores_refuseTaken f).grows fun _ => ?_
  split
  · exact (restores_ofOutcome _).grows
  · exact grows_bindNew f _

theorem grows_runPair (bound : Nat) (pair : Expr τ × Expr τ) : Grows (runPair bound pair) := by
  rw [runPair]
  split
  · exact grows_runDeclare bound _ _
  · exact (restores_ofOutcome _).grows

theorem grows_runUnpack (bound : Nat) (mark : τ) (names values : Expr τ) :
    Grows (runUnpack bound mark names values) := by
  unfold runUnpack
  split
  · split
    · exact grows_forEach (grows_runPair bound) _
    · exact (restores_ofOutcome _).grows
  · exact (restores_ofOutcome _).grows
  · exact (restores_ofOutcome _).grows

/-- The turns of a counting loop grow the scope if the body does. -/
theorem grows_countTurns {body : Action τ Unit} (hbody : Grows body) (var : Ident τ)
    (a b s : Float) (bound : Nat) :
    Grows (do
      bindNew var (.value (.scalar a))
      countUp (fun i => do assign var (.scalar i); inFrame .block body) b s bound a) := by
  -- The variable is new below the frame of the loop, so a turn may assign to it.
  refine grows_bindNew_bind fun base hfree => ?_
  refine preserves_countUp (fun i => ?_) b s bound a
  exact preserves_bind (preserves_assign hfree _) fun _ =>
    (restores_inFrame hbody .block).grows.preserves base

/-- The turns of a loop over a list grow the scope if the body does. -/
theorem grows_listTurns {body : Action τ Unit} (hbody : Grows body) (var : Ident τ) (v : Value)
    (vs : List Value) :
    Grows (do
      bindNew var (.value v)
      forEach (fun w => do inFrame .block body; assign var w) vs) := by
  refine grows_bindNew_bind fun base hfree => ?_
  refine preserves_forEach fun w _ => ?_
  exact preserves_bind ((restores_inFrame hbody .block).grows.preserves base) fun _ =>
    preserves_assign hfree w

/-- A counting loop restores the scope if its body grows it: the frame of a turn takes back what
the body binds, and the frame of the loop takes back the variable. -/
theorem restores_runCount (bound : Nat) (start stop : Expr τ) (var : Ident τ) (step : Expr τ)
    {body : Action τ Unit} (hbody : Grows body) :
    Restores (runCount bound start stop var step body) := by
  refine restores_bind (restores_evalNumber bound start) fun a => ?_
  refine restores_bind (restores_evalNumber bound stop) fun b => ?_
  refine restores_bind (restores_evalNumber bound step) fun s => ?_
  exact restores_inFrame (grows_countTurns hbody var a b s bound) .loop

/-- A loop over a list restores the scope if its body grows it. -/
theorem restores_runEach (bound : Nat) (var : Ident τ) (source : Expr τ) {body : Action τ Unit}
    (hbody : Grows body) : Restores (runEach bound var source body) := by
  refine restores_bind (restores_query _) fun v => ?_
  split
  -- A number and an empty list are refused before any frame is opened.
  · exact restores_ofOutcome _
  · exact restores_ofOutcome _
  · exact restores_inFrame (grows_listTurns hbody var _ _) .loop

mutual

/-- A statement extends the scope in its innermost frame, however it ends. -/
theorem grows_run (bound : Nat) : (s : Stmt τ) → Grows (s.run bound)
  | declare _ x e => grows_runDeclare bound x e
  | define f params body => grows_runDefine f params body
  | print m _ => (restores_bind (restores_query _) fun _ => restores_printLine m _).grows
  | count _ a b i s body => (restores_runCount bound a b i s (grows_runAll bound body)).grows
  | each _ i e body => (restores_runEach bound i e (grows_runAll bound body)).grows
  | block _ body => (restores_inFrame (grows_runAll bound body) .block).grows
  | unpack m names values => grows_runUnpack bound m names values

/-- Statements in order extend the scope in its innermost frame, however they end. -/
theorem grows_runAll (bound : Nat) : (ss : List (Stmt τ)) → Grows (runAll bound ss)
  | [] => (restores_ofOutcome (.done ())).grows
  | s :: ss => grows_bind (grows_run bound s) fun _ => grows_runAll bound ss

end

end Stmt

namespace Session

/-- A program leaves the scope of a session as it was, and so do a block, a counting loop and a
loop over a list in any state of a run: the same frames with the same names recorded, and the
same entries.  It does not matter whether they end normally, fail at any depth, or cannot print. -/
theorem interpret_and_loops_restore (bound : Nat) :
    (∀ (p : Program τ) (s : Session τ),
      (s.interpret bound p).2.machine.names = s.machine.names
        ∧ (s.interpret bound p).2.isOpen = s.isOpen) ∧
    (∀ (mark : τ) (body : List (Stmt τ)) (m : Machine τ),
      ((Stmt.block mark body).run bound m).2.names = m.names) ∧
    (∀ (mark : τ) (start stop : Expr τ) (var : Ident τ) (step : Expr τ) (body : List (Stmt τ))
        (m : Machine τ),
      ((Stmt.count mark start stop var step body).run bound m).2.names = m.names) ∧
    (∀ (mark : τ) (var : Ident τ) (source : Expr τ) (body : List (Stmt τ)) (m : Machine τ),
      ((Stmt.each mark var source body).run bound m).2.names = m.names) := by
  -- Each of them is a frame around statements, and statements grow the scope.
  have hrun := Stmt.grows_runAll (τ := τ) bound
  refine ⟨fun p s => ⟨?_, rfl⟩, fun mark body => ?_, fun mark start stop var step body => ?_,
    fun mark var source body => ?_⟩
  · exact Action.restores_inFrame (hrun p) .program s.machine
  · exact Action.restores_inFrame (hrun body) .block
  · exact Stmt.restores_runCount bound start stop var step (hrun body)
  · exact Stmt.restores_runEach bound var source (hrun body)

end Session

end ListCalc
