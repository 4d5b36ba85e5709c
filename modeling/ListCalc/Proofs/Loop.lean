/-
Loops are their unrollings.

A loop has one frame for its variable, which is overwritten in place, and another
one for every turn of its body.  It does what its turns do one after the other, each
by itself: a turn opens a frame, binds the variable there to the value of the turn,
runs the body and closes the frame (`Stmt.turn`).

While the body runs, the two differ in their frames, and in nothing else.  A body does
not notice that: it reads the entries of the scope and never its frames, it records
new names in whatever frame is innermost, and it closes the frames that it opens.
`FrameBlind` says this of actions.

* `frameBlind_run`, `frameBlind_runAll` — statements are blind to frames;
* `turn_apply` — a turn by itself is a turn inside the frame of a loop;
* `forEach_turn_counter`, `forEach_turn_dropLast` — so are the turns of a whole loop;
* `Stmt.run_count_eq_turns` — a counting loop is the turns for `start`,
  `start + step`, …, up to the first number beyond `stop`;
* `Stmt.run_each_eq_turns` — a loop over a list is the turns for its elements but the
  last one.
-/
import ListCalc.Proofs.Frames

namespace ListCalc

variable {τ α β : Type}

/-! ### Scopes with the same entries -/

section

variable {σ σ' : Names τ}

namespace Names

theorem value?_of_entries_eq (h : σ.entries = σ'.entries) (x : String) :
    σ.value? x = σ'.value? x := by
  simp only [value?, Scope.get?, h]

theorem function?_of_entries_eq (h : σ.entries = σ'.entries) (x : String) :
    σ.function? x = σ'.function? x := by
  simp only [function?, Scope.get?, h]

theorem isTaken_of_entries_eq (h : σ.entries = σ'.entries) (x : String) :
    σ.isTaken x = σ'.isTaken x := by
  simp only [isTaken, Scope.has, Scope.get?, h]

end Names

namespace Expr

mutual

theorem substitute_of_entries_eq (h : σ.entries = σ'.entries) (args : List (String × Expr τ)) :
    (e : Expr τ) → e.substitute σ args = e.substitute σ' args
  | name id => by rw [substitute, substitute, Names.value?_of_entries_eq h]
  | number _ _ => rfl
  | negative _ _ => rfl
  | binary m op l r => by
    rw [substitute, substitute, substitute_of_entries_eq h args l,
      substitute_of_entries_eq h args r]
  | call f es => by rw [substitute, substitute, substituteAll_of_entries_eq h args es]
  | list m es => by rw [substitute, substitute, substituteAll_of_entries_eq h args es]

theorem substituteAll_of_entries_eq (h : σ.entries = σ'.entries)
    (args : List (String × Expr τ)) :
    (es : List (Expr τ)) → substituteAll σ args es = substituteAll σ' args es
  | [] => rfl
  | e :: es => by
    rw [substituteAll, substituteAll, substitute_of_entries_eq h args e,
      substituteAll_of_entries_eq h args es]

end

mutual

theorem evalWith_of_entries_eq (h : σ.entries = σ'.entries)
    (apply : Ident τ → List (Expr τ) → Outcome τ Value) :
    (e : Expr τ) → evalWith σ apply e = evalWith σ' apply e
  | name id => by rw [evalWith, evalWith, Names.value?_of_entries_eq h]
  | number _ _ => rfl
  | negative _ _ => rfl
  | binary m op l r => by
    rw [evalWith, evalWith, evalWith_of_entries_eq h apply l, evalWith_of_entries_eq h apply r]
  | list m es => by rw [evalWith, evalWith, evalAllWith_of_entries_eq h apply es]
  | call f es => by
    rw [evalWith, evalWith]
    split
    · rfl
    · -- A built-in function takes one argument.
      match es with
      | [] => rfl
      | [a] =>
        dsimp only
        rw [evalWith_of_entries_eq h apply a]
      | _ :: _ :: _ => rfl

theorem evalAllWith_of_entries_eq (h : σ.entries = σ'.entries)
    (apply : Ident τ → List (Expr τ) → Outcome τ Value) :
    (es : List (Expr τ)) → evalAllWith σ apply es = evalAllWith σ' apply es
  | [] => rfl
  | e :: es => by
    rw [evalAllWith, evalAllWith, evalWith_of_entries_eq h apply e,
      evalAllWith_of_entries_eq h apply es]

end

/-- An expression has the same value, or fails in the same way, whatever frames are open. -/
theorem eval_of_entries_eq (h : σ.entries = σ'.entries) (bound : Nat) (e : Expr τ) :
    e.eval σ bound = e.eval σ' bound := by
  induction bound generalizing e with
  | zero => exact evalWith_of_entries_eq h _ e
  | succ bound ih =>
    have hcalls : applyFunction σ (eval σ bound) = applyFunction σ' (eval σ' bound) := by
      funext f args
      simp only [applyFunction, Names.function?_of_entries_eq h, substitute_of_entries_eq h, ih]
    rw [eval, eval, hcalls]
    exact evalWith_of_entries_eq h _ e

end Expr

end

/-! ### Actions that do not look at frames -/

/-- The states differ at most in their frames, and a frame is open in each. -/
structure Machine.SameEntries (m m' : Machine τ) : Prop where
  entries : m.names.entries = m'.names.entries
  out : m.out = m'.out
  framed : m.names.frames ≠ []
  framed' : m'.names.frames ≠ []

namespace Action

/-- From states that differ in frames only, the action ends in the same way and in such states. -/
def FrameBlind (x : Action τ α) : Prop :=
  ∀ m m' : Machine τ, m.SameEntries m' → (x m).1 = (x m').1 ∧ (x m).2.SameEntries (x m').2

theorem frameBlind_ofOutcome (o : Outcome τ α) : FrameBlind (ofOutcome o) :=
  fun _ _ h => ⟨rfl, h⟩

theorem frameBlind_evalNow (bound : Nat) (e : Expr τ) : FrameBlind (e.evalNow bound) :=
  fun _ _ h => ⟨e.eval_of_entries_eq h.entries bound, h⟩

theorem frameBlind_refuseTaken (id : Ident τ) : FrameBlind (refuseTaken id) := by
  intro m m' h
  simp only [refuseTaken, Names.isTaken_of_entries_eq h.entries]
  split
  · exact ⟨rfl, h⟩
  · exact ⟨rfl, h⟩

theorem frameBlind_printLine (mark : τ) (line : String) : FrameBlind (printLine mark line) := by
  intro m m' h
  simp only [printLine, h.out]
  split
  · exact ⟨rfl, h.entries, rfl, h.framed, h.framed'⟩
  · exact ⟨rfl, h⟩

theorem frameBlind_bindNew (id : Ident τ) (b : Binding τ) : FrameBlind (bindNew id b) := by
  intro m m' h
  -- In either state there is a frame to record the name in.
  obtain ⟨top, rest, hframes⟩ := List.exists_cons_of_ne_nil h.framed
  obtain ⟨top', rest', hframes'⟩ := List.exists_cons_of_ne_nil h.framed'
  simp only [bindNew, Names.isTaken_of_entries_eq h.entries]
  split
  · exact ⟨rfl, h⟩
  · next htaken =>
    have hfree' := Names.has_eq_false_of_not_isTaken htaken
    have hfree : m.names.has id.name = false := by
      rw [← Names.isTaken_of_entries_eq h.entries] at htaken
      exact Names.has_eq_false_of_not_isTaken htaken
    simp only [Scope.put, hfree, hfree', hframes, hframes', Bool.false_eq_true, if_false]
    refine ⟨trivial, ?_⟩
    exact ⟨congrArg (List.cons _) h.entries, h.out, List.cons_ne_nil _ _, List.cons_ne_nil _ _⟩

theorem assign_eq (id : Ident τ) (v : Value) (m : Machine τ) :
    assign id v m = if m.names.has id.name then
      (.done (), { m with names := { m.names with entries := m.names.entries.map fun e =>
        if e.1 == id.name then (id.name, .value v) else e } })
      else (.failed (.fault (.setUnbound id.name)), m) := by
  rw [assign, Scope.set]
  cases m.names.has id.name <;> rfl

theorem frameBlind_assign (id : Ident τ) (v : Value) : FrameBlind (assign id v) := by
  intro m m' h
  have hhas : m.names.has id.name = m'.names.has id.name := by
    simp only [Scope.has, Scope.get?, h.entries]
  rw [assign_eq, assign_eq, hhas, h.entries]
  split
  · exact ⟨rfl, rfl, h.out, h.framed, h.framed'⟩
  · exact ⟨rfl, h⟩

theorem frameBlind_bind {x : Action τ α} {f : α → Action τ β} (hx : FrameBlind x)
    (hf : ∀ a, FrameBlind (f a)) : FrameBlind (x >>= f) := by
  intro m m' h
  obtain ⟨houtcome, hstate⟩ := hx m m' h
  rw [bind_apply, bind_apply]
  rcases hm : x m with ⟨o, m₁⟩
  rcases hm' : x m' with ⟨o', m₁'⟩
  rw [hm, hm'] at houtcome hstate
  obtain rfl : o = o' := houtcome
  cases o with
  | done a => exact hf a m₁ m₁' hstate
  | failed e => exact ⟨rfl, hstate⟩
  | unfinished => exact ⟨rfl, hstate⟩

theorem frameBlind_forEach {act : α → Action τ Unit} (hact : ∀ a, FrameBlind (act a))
    (as : List α) : FrameBlind (forEach act as) := by
  induction as with
  | nil => exact fun _ _ h => ⟨rfl, h⟩
  | cons a as ih =>
    rw [forEach_cons]
    exact frameBlind_bind (hact a) fun _ => ih

theorem frameBlind_countUp {act : Float → Action τ Unit} (hact : ∀ i, FrameBlind (act i))
    (stop step : Float) (bound : Nat) (i : Float) :
    FrameBlind (countUp act stop step bound i) := by
  induction bound generalizing i with
  | zero =>
    rw [countUp_zero]
    split
    · exact frameBlind_ofOutcome _
    · exact frameBlind_ofOutcome _
  | succ bound ih =>
    rw [countUp_succ]
    split
    · exact frameBlind_bind (hact i) fun _ => ih (i + step)
    · exact frameBlind_ofOutcome _

/-- A frame around growth gives back the frames that were open, in either state. -/
theorem frameBlind_inFrame {x : Action τ Unit} (hx : FrameBlind x) (hgrows : Grows x)
    (kind : FrameKind) : FrameBlind (inFrame kind x) := by
  intro m m' h
  have hopen : Machine.SameEntries { m with names := m.names.push kind }
      { m' with names := m'.names.push kind } :=
    ⟨h.entries, h.out, List.cons_ne_nil _ _, List.cons_ne_nil _ _⟩
  obtain ⟨houtcome, hstate⟩ := hx _ _ hopen
  rw [inFrame_apply hgrows, inFrame_apply hgrows]
  exact ⟨houtcome, h.entries, hstate.out, h.framed, h.framed'⟩

end Action

/-! ### Statements -/

namespace Stmt

open ListCalc.Action

theorem frameBlind_evalNumber (bound : Nat) (e : Expr τ) : FrameBlind (e.evalNumber bound) := by
  refine frameBlind_bind (frameBlind_evalNow bound e) fun v => ?_
  cases v with
  | scalar x => exact frameBlind_ofOutcome _
  | list vs => exact frameBlind_ofOutcome _

theorem frameBlind_runDeclare (bound : Nat) (x : Ident τ) (e : Expr τ) :
    FrameBlind (runDeclare bound x e) := by
  refine frameBlind_bind (frameBlind_refuseTaken x) fun _ => ?_
  exact frameBlind_bind (frameBlind_evalNow bound e) fun v => frameBlind_bindNew x _

theorem frameBlind_runDefine (f : Ident τ) (params : List (Ident τ)) (body : Expr τ) :
    FrameBlind (runDefine f params body) := by
  refine frameBlind_bind (frameBlind_refuseTaken f) fun _ => ?_
  split
  · exact frameBlind_ofOutcome _
  · exact frameBlind_bindNew f _

theorem frameBlind_runPair (bound : Nat) (pair : Expr τ × Expr τ) :
    FrameBlind (runPair bound pair) := by
  rw [runPair]
  split
  · exact frameBlind_runDeclare bound _ _
  · exact frameBlind_ofOutcome _

theorem frameBlind_runUnpack (bound : Nat) (mark : τ) (names values : Expr τ) :
    FrameBlind (runUnpack bound mark names values) := by
  unfold runUnpack
  split
  · split
    · exact frameBlind_forEach (frameBlind_runPair bound) _
    · exact frameBlind_ofOutcome _
  · exact frameBlind_ofOutcome _
  · exact frameBlind_ofOutcome _

theorem frameBlind_runCount (bound : Nat) (start stop : Expr τ) (var : Ident τ) (step : Expr τ)
    {body : Action τ Unit} (hbody : FrameBlind body) (hgrows : Grows body) :
    FrameBlind (runCount bound start stop var step body) := by
  refine frameBlind_bind (frameBlind_evalNumber bound start) fun a => ?_
  refine frameBlind_bind (frameBlind_evalNumber bound stop) fun b => ?_
  refine frameBlind_bind (frameBlind_evalNumber bound step) fun s => ?_
  refine frameBlind_inFrame ?_ (grows_countTurns hgrows var a b s bound) .loop
  refine frameBlind_bind (frameBlind_bindNew var _) fun _ => ?_
  refine frameBlind_countUp (fun i => ?_) b s bound a
  exact frameBlind_bind (frameBlind_assign var _) fun _ => frameBlind_inFrame hbody hgrows .block

theorem frameBlind_runEach (bound : Nat) (var : Ident τ) (source : Expr τ) {body : Action τ Unit}
    (hbody : FrameBlind body) (hgrows : Grows body) :
    FrameBlind (runEach bound var source body) := by
  refine frameBlind_bind (frameBlind_evalNow bound source) fun v => ?_
  split
  · exact frameBlind_ofOutcome _
  · exact frameBlind_ofOutcome _
  · refine frameBlind_inFrame ?_ (grows_listTurns hgrows var _ _) .loop
    refine frameBlind_bind (frameBlind_bindNew var _) fun _ => ?_
    refine frameBlind_forEach (fun w => ?_) _
    exact frameBlind_bind (frameBlind_inFrame hbody hgrows .block) fun _ => frameBlind_assign var w

mutual

/-- A statement does the same whatever frames are open. -/
theorem frameBlind_run (bound : Nat) : (s : Stmt τ) → FrameBlind (s.run bound)
  | declare _ x e => frameBlind_runDeclare bound x e
  | define f params body => frameBlind_runDefine f params body
  | print m e => frameBlind_bind (frameBlind_evalNow bound e) fun _ => frameBlind_printLine m _
  | count _ a b i s body =>
    frameBlind_runCount bound a b i s (frameBlind_runAll bound body) (grows_runAll bound body)
  | each _ i e body =>
    frameBlind_runEach bound i e (frameBlind_runAll bound body) (grows_runAll bound body)
  | block _ body =>
    frameBlind_inFrame (frameBlind_runAll bound body) (grows_runAll bound body) .block
  | unpack m names values => frameBlind_runUnpack bound m names values

/-- Statements in order do the same whatever frames are open. -/
theorem frameBlind_runAll (bound : Nat) : (ss : List (Stmt τ)) → FrameBlind (runAll bound ss)
  | [] => frameBlind_ofOutcome (.done ())
  | s :: ss => frameBlind_bind (frameBlind_run bound s) fun _ => frameBlind_runAll bound ss

end

end Stmt

/-! ### Turns -/

/-- The scope in a new frame that holds a variable. -/
def Names.holding (kind : FrameKind) (var : Ident τ) (v : Value) (σ : Names τ) : Names τ :=
  (σ.push kind).grow [(var.name, .value v)]

namespace Action

variable {σ : Names τ} {var : Ident τ} (hfree : σ.isTaken var.name = false)

include hfree

theorem bindNew_push (kind : FrameKind) (v : Value) (out : Writer) :
    bindNew var (.value v) ⟨σ.push kind, out⟩ = (.done (), ⟨σ.holding kind var v, out⟩) := by
  have htaken : Names.isTaken (σ.push kind) var.name = false := hfree
  have hhas : σ.has var.name = false :=
    Names.has_eq_false_of_not_isTaken (Bool.eq_false_iff.mp hfree)
  simp only [bindNew, htaken, Scope.put, Scope.has_push, hhas, Bool.false_eq_true, if_false]
  rfl

/-- The variable of a frame takes another value, and all else stays. -/
theorem assign_holding (kind : FrameKind) (v w : Value) (out : Writer) :
    assign var w ⟨σ.holding kind var v, out⟩ = (.done (), ⟨σ.holding kind var w, out⟩) := by
  have hhas : σ.has var.name = false :=
    Names.has_eq_false_of_not_isTaken (Bool.eq_false_iff.mp hfree)
  have hbound : Scope.has (σ.holding kind var v) var.name = true :=
    (Scope.has_eq_true_iff _ _).mpr ⟨_, List.mem_cons_self, rfl⟩
  -- No other entry has the name of the variable.
  have hbelow := Scope.map_replace_of_free (.value w) hhas
  rw [assign_eq, if_pos hbound]
  simpa [Names.holding, Scope.grow, Scope.push] using hbelow

end Action

namespace Stmt

open ListCalc.Action

/-- A turn of a loop by itself: a frame is opened, the variable is bound in it, the body runs, and
the frame is closed. -/
def turn (var : Ident τ) (body : Action τ Unit) (v : Value) : Action τ Unit :=
  inFrame .block do
    bindNew var (.value v)
    body

/-- The numbers of a counting loop: the first one, and each by one step further than the one
before it. -/
def counter (start step : Float) : Nat → Float
  | 0 => start
  | k + 1 => counter start step k + step

theorem counter_add (start step : Float) (k : Nat) :
    counter (start + step) step k = counter start step (k + 1) := by
  induction k with
  | zero => rfl
  | succ k ih => exact congrArg (· + step) ih

section

variable {body : Action τ Unit} (hgrows : Grows body) (hblind : FrameBlind body)
  {σ : Names τ} {var : Ident τ} (hfree : σ.isTaken var.name = false)

include hgrows hblind hfree

/-- **A turn by itself is a turn inside the frame of a loop**: it ends in the same way and writes
the same lines, and the scope afterwards is the one around the loop. -/
theorem turn_apply (v : Value) (out : Writer) :
    turn var body v ⟨σ, out⟩
      = ((inFrame .block body ⟨σ.holding .loop var v, out⟩).1,
        ⟨σ, (inFrame .block body ⟨σ.holding .loop var v, out⟩).2.out⟩) := by
  -- In the loop, the frame of the turn stands on the one of the variable; here they are one.
  have hstates : Machine.SameEntries ⟨σ.holding .block var v, out⟩
      ⟨(σ.holding .loop var v).push .block, out⟩ :=
    ⟨rfl, rfl, List.cons_ne_nil _ _, List.cons_ne_nil _ _⟩
  obtain ⟨houtcome, hstate⟩ := hblind _ _ hstates
  have hopen : Grows (do bindNew var (.value v); body) :=
    grows_bind (grows_bindNew var _) fun _ => hgrows
  rw [turn, inFrame_apply hopen, inFrame_apply hgrows, bind_apply, bindNew_push hfree]
  simp only [houtcome, hstate.out]

/-- The turns for all elements of a list but the last one, and the turns of a loop over the list,
in which the variable moves on after each. -/
theorem forEach_turn_dropLast (v : Value) (vs : List Value) (out : Writer) :
    forEach (turn var body) (v :: vs).dropLast ⟨σ, out⟩
      = ((forEach (fun w => do inFrame .block body; assign var w) vs
            ⟨σ.holding .loop var v, out⟩).1,
        ⟨σ, (forEach (fun w => do inFrame .block body; assign var w) vs
            ⟨σ.holding .loop var v, out⟩).2.out⟩) := by
  induction vs generalizing v out with
  | nil => rfl
  | cons w vs ih =>
    have hnames := restores_inFrame hgrows .block ⟨σ.holding .loop var v, out⟩
    rw [List.dropLast_cons_cons, forEach_cons, forEach_cons, bind_apply, bind_apply, bind_apply,
      turn_apply hgrows hblind hfree]
    rcases hturn : inFrame .block body ⟨σ.holding .loop var v, out⟩ with ⟨u | e | _, σ', out'⟩
    · rw [hturn] at hnames
      obtain rfl : σ' = σ.holding .loop var v := hnames
      dsimp only
      rw [assign_holding hfree]
      exact ih w out'
    · rfl
    · rfl

/-- The turns for the numbers of a counting loop, and the turns of the loop, each of which starts
by moving the variable. -/
theorem forEach_turn_counter {a b s : Float} {n bound : Nat} (hbound : n ≤ bound)
    (hturns : ∀ k < n, counter a s k ≤ b) (hend : ¬ counter a s n ≤ b) (v : Value)
    (out : Writer) :
    forEach (turn var body) ((List.range n).map fun k => .scalar (counter a s k)) ⟨σ, out⟩
      = ((countUp (fun i => do assign var (.scalar i); inFrame .block body) b s bound a
            ⟨σ.holding .loop var v, out⟩).1,
        ⟨σ, (countUp (fun i => do assign var (.scalar i); inFrame .block body) b s bound a
            ⟨σ.holding .loop var v, out⟩).2.out⟩) := by
  induction n generalizing a bound v out with
  | zero =>
    have hnone : ¬ a ≤ b := hend
    cases bound with
    | zero =>
      rw [countUp_zero, if_neg hnone]
      rfl
    | succ bound =>
      rw [countUp_succ, if_neg hnone]
      rfl
  | succ n ih =>
    obtain ⟨bound, rfl⟩ : ∃ d, bound = d + 1 := ⟨bound - 1, by omega⟩
    have hfirst : a ≤ b := hturns 0 (Nat.succ_pos n)
    have hrest : ∀ k < n, counter (a + s) s k ≤ b := by
      intro k hk
      rw [counter_add]
      exact hturns (k + 1) (Nat.succ_lt_succ hk)
    have hend' : ¬ counter (a + s) s n ≤ b := by rwa [counter_add]
    have hvalues : (List.range (n + 1)).map (fun k => Value.scalar (counter a s k))
        = .scalar a :: (List.range n).map fun k => .scalar (counter (a + s) s k) := by
      simp only [List.range_succ_eq_map, List.map_cons, List.map_map, counter_add]
      rfl
    have hnames := restores_inFrame hgrows .block ⟨σ.holding .loop var (.scalar a), out⟩
    rw [hvalues, forEach_cons, countUp_succ, if_pos hfirst, bind_apply, bind_apply, bind_apply,
      assign_holding hfree, turn_apply hgrows hblind hfree]
    dsimp only
    rcases hturn : inFrame .block body ⟨σ.holding .loop var (.scalar a), out⟩
      with ⟨u | e | _, σ', out'⟩
    · rw [hturn] at hnames
      obtain rfl : σ' = σ.holding .loop var (.scalar a) := hnames
      exact ih (by omega) hrest hend' (.scalar a) out'
    · rfl
    · rfl

end

/-! ### Loops -/

theorem evalNumber_of_eval {bound : Nat} {e : Expr τ} {m : Machine τ} {x : Float}
    (h : e.eval m.names bound = .done (.scalar x)) : e.evalNumber bound m = (.done x, m) := by
  rw [Expr.evalNumber, bind_apply, Expr.evalNow, query, h]
  rfl

/-- **A counting loop is its unrolling.**  If `start`, `stop` and `step` have the values `a`, `b`
and `s`, the variable is free, and `a`, `a + s`, … exceed `b` after `n` numbers for the first time,
then the loop does what the turns for these numbers do, one after the other and up to the first
that fails: it writes the same lines, ends in the same way and leaves the same scope. -/
theorem run_count_eq_turns {bound n : Nat} {m : Machine τ} {start stop step : Expr τ}
    {a b s : Float} (hstart : start.eval m.names bound = .done (.scalar a))
    (hstop : stop.eval m.names bound = .done (.scalar b))
    (hstep : step.eval m.names bound = .done (.scalar s)) {var : Ident τ}
    (hfree : m.names.isTaken var.name = false) (hturns : ∀ k < n, counter a s k ≤ b)
    (hend : ¬ counter a s n ≤ b) (hbound : n ≤ bound) (mark : τ) (body : List (Stmt τ)) :
    (Stmt.count mark start stop var step body).run bound m
      = forEach (turn var (runAll bound body))
          ((List.range n).map fun k => .scalar (counter a s k)) m := by
  have hgrows := grows_runAll bound body
  obtain ⟨σ, out⟩ := m
  rw [run, runCount, bind_apply, evalNumber_of_eval hstart]
  dsimp only
  rw [bind_apply, evalNumber_of_eval hstop]
  dsimp only
  rw [bind_apply, evalNumber_of_eval hstep]
  dsimp only
  rw [inFrame_apply (grows_countTurns hgrows var a b s bound), bind_apply, bindNew_push hfree]
  exact (forEach_turn_counter hgrows (frameBlind_runAll bound body) hfree hbound hturns hend _
    out).symm

/-- Tenths from nothing to three tenths, in a session with a function that reads the variable of
the loop.  The fourth number is a rounding error beyond the last, so there are three turns. -/
theorem run_count_eq_turns_tenths :
    let name (x : String) : Ident Unit := ⟨(), x⟩
    let f : Function Unit := ⟨"f", ["x"], .list () [.name (name "x"), .name (name "i")]⟩
    let m : Machine Unit := ⟨⟨[("f", .function f)], [⟨.program, ["f"]⟩]⟩, .fresh none⟩
    let body : List (Stmt Unit) := [.declare () (name "y") (.call (name "f") [.name (name "i")]),
      .print () (.name (name "y"))]
    (∀ k < 3, counter 0 0.1 k ≤ 0.3) ∧ ¬ counter 0 0.1 3 ≤ 0.3 ∧
      (Stmt.count () (.number () "0") (.number () "0.3") (name "i") (.number () "0.1") body).run 3 m
        = forEach (turn (name "i") (runAll 3 body))
            ((List.range 3).map fun k => .scalar (counter 0 0.1 k)) m := by
  intro name f m body
  have hturns : ∀ k < 3, counter 0 0.1 k ≤ 0.3 := by decide +kernel
  have hend : ¬ counter 0 0.1 3 ≤ 0.3 := by decide +kernel
  exact ⟨hturns, hend, run_count_eq_turns rfl rfl rfl (by decide +kernel) hturns hend
    (Nat.le_refl 3) () body⟩

/-- **A loop over a list is its unrolling**, over all elements but the last one.  The elements are
computed once, before the first turn.  The loop writes the same lines as the turns for them, one
after the other and up to the first that fails, ends in the same way and leaves the same scope. -/
theorem run_each_eq_turns {bound : Nat} {m : Machine τ} {source : Expr τ} {vs : List Value}
    (hsource : source.eval m.names bound = .done (.list vs)) (hvs : vs ≠ []) {var : Ident τ}
    (hfree : m.names.isTaken var.name = false) (mark : τ) (body : List (Stmt τ)) :
    (Stmt.each mark var source body).run bound m
      = forEach (turn var (runAll bound body)) vs.dropLast m := by
  have hgrows := grows_runAll bound body
  obtain ⟨v, vs, rfl⟩ := List.exists_cons_of_ne_nil hvs
  obtain ⟨σ, out⟩ := m
  have hvalue : source.evalNow bound ⟨σ, out⟩ = (.done (.list (v :: vs)), ⟨σ, out⟩) :=
    congrArg (·, _) hsource
  rw [run, runEach, bind_apply, hvalue]
  dsimp only
  rw [inFrame_apply (grows_listTurns hgrows var v vs), bind_apply, bindNew_push hfree]
  exact (forEach_turn_dropLast hgrows (frameBlind_runAll bound body) hfree v vs out).symm

/-- Of three elements, the first two have turns, and the second one fails: its list is too short
for the sum. -/
theorem run_each_eq_turns_ragged :
    let name (x : String) : Ident Unit := ⟨(), x⟩
    let one : Expr Unit := .number () "1"
    let m : Machine Unit := ⟨⟨[], [⟨.program, []⟩]⟩, .fresh none⟩
    let source : Expr Unit := .list () [one, .list () [one], one]
    let body : List (Stmt Unit) :=
      [.declare () (name "y") (.binary () "+" (.name (name "x")) (.list () [one, one])),
        .print () (.name (name "y"))]
    source.eval m.names 1 = .done (.list [.scalar 1, .list [.scalar 1], .scalar 1]) ∧
      (Stmt.each () (name "x") source body).run 1 m
        = forEach (turn (name "x") (runAll 1 body)) [.scalar 1, .list [.scalar 1]] m := by
  intro name one m source body
  have hsource : source.eval m.names 1 = .done (.list [.scalar 1, .list [.scalar 1], .scalar 1]) :=
    rfl
  exact ⟨hsource, run_each_eq_turns hsource (List.cons_ne_nil _ _) (by decide +kernel) () body⟩

end Stmt

end ListCalc
