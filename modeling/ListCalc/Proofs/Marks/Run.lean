/-
Running does not look at marks.

Statements with other marks print the same lines, bind the same names and end in
the same way; a failure differs in its mark only.  `Mirrors` says this of two
actions, and `mirrors_runAll` of the actions of a program.  It follows that two
programs with the same bare syntax run alike (`runAll_of_bare_eq`).
-/
import ListCalc.Proofs.Action
import ListCalc.Proofs.Marks.Eval
import ListCalc.Stmt.Run

namespace ListCalc

variable {α β τ υ : Type}

/-- The state with other marks in the meanings of its names. -/
def Machine.map (f : τ → υ) (m : Machine τ) : Machine υ := ⟨m.names.map f, m.out⟩

namespace Action

variable {f : τ → υ}

/-- `y` does to the state with other marks what `x` does to the state. -/
def Mirrors (f : τ → υ) (x : Action τ α) (y : Action υ α) : Prop :=
  ∀ m, y (m.map f) = ((x m).1.remark f, (x m).2.map f)

/-! ### Single actions -/

theorem mirrors_ofOutcome (o : Outcome τ α) : Mirrors f (ofOutcome o) (ofOutcome (o.remark f)) :=
  fun _ => rfl

theorem mirrors_query {g : Names τ → Outcome τ α} {g' : Names υ → Outcome υ α}
    (hg : ∀ σ, g' (σ.map f) = (g σ).remark f) : Mirrors f (query g) (query g') :=
  fun m => congrArg (·, m.map f) (hg m.names)

theorem mirrors_refuseTaken (id : Ident τ) :
    Mirrors f (refuseTaken id) (refuseTaken (id.map f)) := by
  intro m
  simp only [refuseTaken, Machine.map, Names.isTaken_map, Ident.map_name]
  split <;> rfl

theorem mirrors_bindNew (id : Ident τ) (b : Binding τ) :
    Mirrors f (bindNew id b) (bindNew (id.map f) (b.map f)) := by
  intro m
  have hput : Scope.put id.name (b.map f) (m.names.map f)
      = (m.names.put id.name b).map fun r => (r.1, Names.map f r.2) :=
    Scope.put_map (Binding.map f) m.names id.name b
  simp only [bindNew, Machine.map, Names.isTaken_map, Ident.map_name, hput]
  split
  · rfl
  · rcases m.names.put id.name b with x | ⟨flag, names⟩ <;> rfl

theorem mirrors_assign (id : Ident τ) (v : Value) :
    Mirrors f (assign id v) (assign (id.map f) v) := by
  intro m
  have hset : Scope.set id.name (.value v) (m.names.map f)
      = (m.names.set id.name (.value v)).map (Names.map f) :=
    Scope.set_map (Binding.map f) m.names id.name (.value v)
  simp only [assign, Machine.map, Ident.map_name, hset]
  cases m.names.set id.name (.value v) <;> rfl

theorem mirrors_printLine (mark : τ) (line : String) :
    Mirrors f (printLine mark line) (printLine (f mark) line) := by
  intro m
  simp only [printLine, Machine.map]
  cases m.out.writeLine line <;> rfl

/-! ### Sequences, frames and repetition -/

theorem mirrors_bind {x : Action τ α} {x' : Action υ α} {k : α → Action τ β}
    {k' : α → Action υ β} (hx : Mirrors f x x') (hk : ∀ a, Mirrors f (k a) (k' a)) :
    Mirrors f (x >>= k) (x' >>= k') := by
  intro m
  rw [bind_apply, bind_apply, hx m]
  rcases x m with ⟨a | e | _, m'⟩
  · exact hk a m'
  · rfl
  · rfl

theorem mirrors_inFrame {x : Action τ Unit} {x' : Action υ Unit} (hx : Mirrors f x x')
    (kind : FrameKind) : Mirrors f (inFrame kind x) (inFrame kind x') := by
  intro m
  -- The two insides run in frames that record the same names.
  have hopen := hx { m with names := m.names.push kind }
  rcases hrun : x { m with names := m.names.push kind } with ⟨o, m'⟩
  rw [hrun] at hopen
  have hpop : Scope.pop (m'.names.map f) = m'.names.pop.map fun r => (r.1, Names.map f r.2) :=
    Scope.pop_map (Binding.map f) m'.names
  have hpush : (Machine.map f m).names.push kind = Names.map f (m.names.push kind) := rfl
  simp only [inFrame, hrun, hpush]
  rw [show (⟨Names.map f (m.names.push kind), (Machine.map f m).out⟩ : Machine υ)
    = Machine.map f { m with names := m.names.push kind } from rfl, hopen]
  simp only [Machine.map, hpop]
  rcases m'.names.pop with x | ⟨names, rest⟩ <;> rfl

theorem mirrors_forEach {F : α → β} {act : α → Action τ Unit} {act' : β → Action υ Unit}
    (hact : ∀ a, Mirrors f (act a) (act' (F a))) (as : List α) :
    Mirrors f (forEach act as) (forEach act' (as.map F)) := by
  induction as with
  | nil => exact fun m => rfl
  | cons a as ih =>
    intro m
    rw [List.map_cons, forEach, forEach, hact a m]
    rcases act a m with ⟨u | e | _, m'⟩
    · exact ih m'
    · rfl
    · rfl

theorem mirrors_countUp {act : Float → Action τ Unit} {act' : Float → Action υ Unit}
    (hact : ∀ i, Mirrors f (act i) (act' i)) (stop step : Float) (bound : Nat) (i : Float) :
    Mirrors f (countUp act stop step bound i) (countUp act' stop step bound i) := by
  induction bound generalizing i with
  | zero =>
    intro m
    rw [countUp, countUp]
    split <;> rfl
  | succ bound ih =>
    intro m
    rw [countUp, countUp, hact i m]
    split
    · rcases act i m with ⟨u | e | _, m'⟩
      · exact ih (i + step) m'
      · rfl
      · rfl
    · rfl

end Action

/-! ### Statements -/

namespace Stmt

open ListCalc.Action

variable (f : τ → υ) (bound : Nat)

theorem mirrors_evalNow (e : Expr τ) : Mirrors f (e.evalNow bound) ((e.map f).evalNow bound) :=
  mirrors_query fun σ => Expr.eval_map f σ bound e

theorem mirrors_evalNumber (e : Expr τ) :
    Mirrors f (e.evalNumber bound) ((e.map f).evalNumber bound) := by
  refine mirrors_bind (mirrors_evalNow f bound e) fun v => ?_
  cases v with
  | scalar x => exact fun _ => rfl
  | list vs =>
    rw [Expr.mark_map]
    exact mirrors_ofOutcome _

theorem mirrors_runDeclare (x : Ident τ) (e : Expr τ) :
    Mirrors f (runDeclare bound x e) (runDeclare bound (x.map f) (e.map f)) := by
  refine mirrors_bind (mirrors_refuseTaken x) fun _ => ?_
  refine mirrors_bind (mirrors_evalNow f bound e) fun v => ?_
  exact mirrors_bindNew x (.value v)

theorem repeatedParam?_map (seen : List String) (params : List (Ident τ)) :
    repeatedParam? seen (params.map (Ident.map f))
      = (repeatedParam? seen params).map (Ident.map f) := by
  induction params generalizing seen with
  | nil => rfl
  | cons p params ih =>
    rw [List.map_cons, repeatedParam?, repeatedParam?, ih, Ident.map_name]
    split <;> rfl

theorem mirrors_runDefine (x : Ident τ) (params : List (Ident τ)) (body : Expr τ) :
    Mirrors f (runDefine x params body)
      (runDefine (x.map f) (params.map (Ident.map f)) (body.map f)) := by
  refine mirrors_bind (mirrors_refuseTaken x) fun _ => ?_
  -- Which parameter is repeated depends on names only; the complaint carries its mark.
  have hnames : (params.map (Ident.map f)).map Ident.name = params.map Ident.name := by
    rw [List.map_map]
    rfl
  rw [repeatedParam?_map, hnames]
  cases repeatedParam? [] params with
  | some p => exact mirrors_ofOutcome _
  | none => exact mirrors_bindNew x (.function ⟨x.name, params.map Ident.name, body⟩)

/-- A complaint about an expression shows its text and carries its mark. -/
theorem mirrors_raise_render (kind : RuntimeError.Kind) (detail : String) (e : Expr τ) :
    Mirrors (α := α) f (raise kind "" e.mark (detail ++ e.render))
      (raise kind "" (e.map f).mark (detail ++ (e.map f).render)) := by
  rw [Expr.mark_map, Expr.render_map]
  exact mirrors_ofOutcome _

theorem mirrors_runPair (pair : Expr τ × Expr τ) :
    Mirrors f (runPair bound pair) (runPair bound (pair.1.map f, pair.2.map f)) := by
  obtain ⟨x, e⟩ := pair
  -- Whatever is not a name is shown in a complaint.
  have hother := mirrors_raise_render (α := Unit) f .expectedIdentifier "got " x
  cases x with
  | name id => exact mirrors_runDeclare f bound id e
  | number m text => exact hother
  | negative m text => exact hother
  | binary m op l r => exact hother
  | call g args => exact hother
  | list m es => exact hother

theorem mirrors_runUnpack (mark : τ) (names values : Expr τ) :
    Mirrors f (runUnpack bound mark names values)
      (runUnpack bound (f mark) (names.map f) (values.map f)) := by
  have hleft := mirrors_raise_render (α := Unit) f .expectedList "left side of destructuring is "
    names
  have hright := mirrors_raise_render (α := Unit) f .expectedList
    "right side of destructuring is " values
  cases names with
  | list m xs =>
    cases values with
    | list m' es =>
      have hpairs : (Expr.mapAll f xs).zip (Expr.mapAll f es)
          = (xs.zip es).map fun pair => (pair.1.map f, pair.2.map f) := by
        rw [Expr.mapAll_eq_map, Expr.mapAll_eq_map, List.zip_map]
        rfl
      simp only [runUnpack, Expr.map, Expr.length_mapAll, hpairs]
      split
      · exact mirrors_forEach (mirrors_runPair f bound) (xs.zip es)
      · exact mirrors_ofOutcome _
    | name id => exact hright
    | number m' text => exact hright
    | negative m' text => exact hright
    | binary m' op l r => exact hright
    | call g args => exact hright
  | name id => exact hleft
  | number m text => exact hleft
  | negative m text => exact hleft
  | binary m op l r => exact hleft
  | call g args => exact hleft

theorem mirrors_runCount (start stop : Expr τ) (var : Ident τ) (step : Expr τ)
    {body : Action τ Unit} {body' : Action υ Unit} (hbody : Mirrors f body body') :
    Mirrors f (runCount bound start stop var step body)
      (runCount bound (start.map f) (stop.map f) (var.map f) (step.map f) body') := by
  refine mirrors_bind (mirrors_evalNumber f bound start) fun a => ?_
  refine mirrors_bind (mirrors_evalNumber f bound stop) fun b => ?_
  refine mirrors_bind (mirrors_evalNumber f bound step) fun s => ?_
  -- Both loops count through the same numbers, as the bounds have no marks.
  refine mirrors_inFrame ?_ .loop
  refine mirrors_bind (mirrors_bindNew var (.value (.scalar a))) fun _ => ?_
  refine mirrors_countUp (fun i => ?_) b s bound a
  exact mirrors_bind (mirrors_assign var (.scalar i)) fun _ => mirrors_inFrame hbody .block

theorem mirrors_runEach (var : Ident τ) (source : Expr τ) {body : Action τ Unit}
    {body' : Action υ Unit} (hbody : Mirrors f body body') :
    Mirrors f (runEach bound var source body)
      (runEach bound (var.map f) (source.map f) body') := by
  refine mirrors_bind (mirrors_evalNow f bound source) fun v => ?_
  rw [Expr.mark_map]
  split
  · exact mirrors_ofOutcome _
  · exact mirrors_ofOutcome _
  · next v vs =>
    refine mirrors_inFrame ?_ .loop
    refine mirrors_bind (mirrors_bindNew var (.value v)) fun _ => ?_
    have hturns : vs.map (fun w => w) = vs := List.map_id vs
    have hturn : ∀ w, Mirrors f (do inFrame .block body; assign var w)
        (do inFrame .block body'; assign (var.map f) w) := fun w =>
      mirrors_bind (mirrors_inFrame hbody .block) fun _ => mirrors_assign var w
    have hloop := mirrors_forEach (F := fun w : Value => w) hturn vs
    rwa [hturns] at hloop

mutual

/-- A statement with other marks does the same. -/
theorem mirrors_run : (s : Stmt τ) → Mirrors f (s.run bound) ((s.map f).run bound)
  | declare _ x e => mirrors_runDeclare f bound x e
  | define x params body => mirrors_runDefine f x params body
  | print m e =>
    mirrors_bind (mirrors_evalNow f bound e) fun v => mirrors_printLine m v.render
  | count _ a b i s body => mirrors_runCount f bound a b i s (mirrors_runAll body)
  | each _ i e body => mirrors_runEach f bound i e (mirrors_runAll body)
  | block _ body => mirrors_inFrame (mirrors_runAll body) .block
  | unpack m l r => mirrors_runUnpack f bound m l r

/-- Statements with other marks do the same. -/
theorem mirrors_runAll : (ss : List (Stmt τ)) →
    Mirrors f (runAll bound ss) (runAll bound (mapAll f ss))
  | [] => fun _ => rfl
  | s :: ss => mirrors_bind (mirrors_run s) fun _ => mirrors_runAll ss

end

/-- Two programs with the same bare syntax run alike from states that differ in marks only. -/
theorem runAll_of_bare_eq {p q : Program τ} (h : Program.bare p = Program.bare q)
    (m : Machine τ) :
    (runAll bound p m).1.remark (fun _ => ()) = (runAll bound q m).1.remark (fun _ => ()) ∧
      (runAll bound p m).2.out = (runAll bound q m).2.out := by
  have hp := mirrors_runAll (fun _ : τ => ()) bound p m
  have hq := mirrors_runAll (fun _ : τ => ()) bound q m
  -- Without marks, the two programs are one.
  have hrun := hp.symm.trans ((congrArg (runAll bound · (m.map fun _ => ())) h).trans hq)
  exact ⟨congrArg Prod.fst hrun, congrArg (fun r => r.2.out) hrun⟩

end Stmt

end ListCalc
