/-
The interpreter with its preconditions checked.

Some steps of a run make sense under a condition only: an operator must be known,
a name that is bound anew must be free and find a frame, a name that is assigned
to must be bound, a frame that is closed must be open, and an element that is
picked by its index must be there.  The interpreter rests on earlier checks for
all of them.  Here it is spelled out once more with the conditions checked on the
spot: `Guarded` runs end in a breach where one fails.

* `run_eq`, `eval_eq` — the checks change nothing: a guarded run is the run itself,
  with its faults as breaches and no breach of another kind;
* `Session.guarded_perform` — the calls of a session with parsed programs, in any
  order, have no breach at all.
-/
import ListCalc.Proofs.Faults
import ListCalc.Proofs.RoundTrip

namespace ListCalc

variable {τ α β : Type}

/-- A step that cannot be carried out. -/
inductive Breach where
  /-- a frame is missing, a name is free or an operator is unknown -/
  | fault (f : Fault)
  /-- a name that is to be bound is bound already -/
  | refused (name : String)
  /-- a list has no element at an index -/
  | outOfRange (index : Nat)
  deriving DecidableEq

/-- Changes the state of a run and ends with an outcome, unless a step cannot be carried out. -/
def Guarded (τ α : Type) : Type :=
  Machine τ → Except Breach (Outcome τ α × Machine τ)

namespace Guarded

/-- Changes nothing. -/
protected def pure (a : α) : Guarded τ α := fun m => .ok (.done a, m)

/-- Acts with `x` and, if that is done, with the action its value selects. -/
protected def bind (x : Guarded τ α) (f : α → Guarded τ β) : Guarded τ β := fun m =>
  match x m with
  | .error b => .error b
  | .ok (.done a, m') => f a m'
  | .ok (.failed e, m') => .ok (.failed e, m')
  | .ok (.unfinished, m') => .ok (.unfinished, m')

instance : Monad (Guarded τ) where
  pure := Guarded.pure
  bind := Guarded.bind

/-! ### Steps with conditions -/

/-- An action, with its faults as breaches. -/
def ofAction (x : Action τ α) : Guarded τ α := fun m =>
  match x m with
  | (.failed (.fault f), _) => .error (.fault f)
  | r => .ok r

/-- Fails with a runtime error. -/
def raise (kind : RuntimeError.Kind) (name : String) (mark : τ) (detail : String) : Guarded τ α :=
  ofAction (Action.raise kind name mark detail)

/-- The element of a list at an index, which must be there. -/
def element (as : List α) (i : Nat) : Guarded τ α := fun m =>
  match as[i]? with
  | some a => .ok (.done a, m)
  | none => .error (.outOfRange i)

/-- Binds a name, which must be free, in a frame, which must be open. -/
def put (name : String) (b : Binding τ) : Guarded τ Unit := fun m =>
  match m.names.put name b with
  | .ok (true, names) => .ok (.done (), { m with names })
  | .ok (false, _) => .error (.refused name)
  | .error f => .error (.fault f)

/-- Binds a new name; a taken one is a redeclaration. -/
def bindNew (id : Ident τ) (b : Binding τ) : Guarded τ Unit := do
  ofAction (Action.refuseTaken id)
  put id.name b

/-- Acts inside a frame of its own, which must be there to be closed. -/
def inFrame (kind : FrameKind) (x : Guarded τ Unit) : Guarded τ Unit := fun m =>
  match x { m with names := m.names.push kind } with
  | .error b => .error b
  | .ok (o, m') =>
    match m'.names.pop with
    | .ok (_, names) => .ok (o, { m' with names })
    | .error f => .error (.fault f)

/-- Acts on each of some elements, in order, up to the first failure. -/
def forEach (act : α → Guarded τ Unit) : List α → Guarded τ Unit
  | [] => pure ()
  | a :: rest => do
    act a
    forEach act rest

/-- Acts on `i`, `i + step`, … as long as they do not exceed `stop`, at most `bound` times and up
to the first failure. -/
def countUp (act : Float → Guarded τ Unit) (stop step : Float) : Nat → Float → Guarded τ Unit
  | 0, i => if i ≤ stop then ofAction (.ofOutcome .unfinished) else pure ()
  | bound + 1, i =>
    if i ≤ stop then do
      act i
      countUp act stop step bound (i + step)
    else pure ()

/-! ### Values -/

mutual

/-- Applies `f` to two values with broadcasting; elements of the second are picked by index. -/
def broadcast (mark : τ) (f : Float → Float → Float) : Value → Value → Guarded τ Value
  | .scalar x, r => pure (r.map (f x))
  | .list ls, .scalar y => pure ((Value.list ls).map (f · y))
  | .list ls, .list rs =>
    if ls.length = rs.length then do
      let vs ← broadcastFrom mark f rs 0 ls
      return .list vs
    else
      raise .invalidListLength "" mark (toString ls.length ++ " != " ++ toString rs.length)

/-- Broadcasts element by element, from the index `i` of the second list on. -/
def broadcastFrom (mark : τ) (f : Float → Float → Float) (rs : List Value) :
    Nat → List Value → Guarded τ (List Value)
  | _, [] => pure []
  | i, l :: ls => do
    let r ← element rs i
    let v ← broadcast mark f l r
    let vs ← broadcastFrom mark f rs (i + 1) ls
    return v :: vs

end

/-- Applies an operator, which must be known. -/
def applyOperator (mark : τ) (op : String) (l r : Value) : Guarded τ Value :=
  match Operator.ofText? op with
  | none => fun _ => .error (.fault (.unknownOperator op))
  | some o => broadcast mark o.onNumbers l r

/-! ### Expressions -/

mutual

/-- The value of an expression, where `apply` carries out the calls of defined functions. -/
def evalWith (apply : Ident τ → List (Expr τ) → Guarded τ Value) : Expr τ → Guarded τ Value
  | .name id => fun m =>
    match m.names.value? id.name with
    | some v => .ok (.done v, m)
    | none => raise .undefinedVariable id.name id.mark "" m
  | .number mark text => do
    let x ← ofAction (.ofOutcome (readNumber mark text))
    return .scalar x
  | .negative mark text => do
    let x ← ofAction (.ofOutcome (readNumber mark text))
    return .scalar (-x)
  | .binary mark op l r => do
    let a ← evalWith apply l
    let b ← evalWith apply r
    applyOperator mark op a b
  | .list _ es => do
    let vs ← evalAllWith apply es
    return .list vs
  | .call f args =>
    match ListCalc.function? f.name with
    | none => apply f args
    | some g =>
      if args.length = 1 then do
        let v ← evalElementWith apply args 0
        return v.map g
      else
        raise .invalidArguments f.name f.mark ("expected 1 argument, got " ++ toString args.length)

/-- The values of some expressions, from the left. -/
def evalAllWith (apply : Ident τ → List (Expr τ) → Guarded τ Value) :
    List (Expr τ) → Guarded τ (List Value)
  | [] => pure []
  | e :: es => do
    let v ← evalWith apply e
    let vs ← evalAllWith apply es
    return v :: vs

/-- The value of the expression at an index, which must be there. -/
def evalElementWith (apply : Ident τ → List (Expr τ) → Guarded τ Value) :
    List (Expr τ) → Nat → Guarded τ Value
  | [], i => fun _ => .error (.outOfRange i)
  | e :: _, 0 => evalWith apply e
  | _ :: es, i + 1 => evalElementWith apply es i

end

/-- The parameters, from the index `i` on, with the arguments they stand for. -/
def argumentsFrom (args : List (Expr τ)) : Nat → List String → Guarded τ (List (String × Expr τ))
  | _, [] => pure []
  | i, p :: ps => do
    let a ← element args i
    let rest ← argumentsFrom args (i + 1) ps
    return (p, a) :: rest

/-- Calls a defined function: its body, with the arguments in place of the parameters, goes to
`evalBody`. -/
def applyFunction (evalBody : Expr τ → Guarded τ Value) (f : Ident τ) (args : List (Expr τ)) :
    Guarded τ Value := fun m =>
  match m.names.function? f.name with
  | none => raise .undefinedFunction f.name f.mark "" m
  | some fn =>
    if args.length = fn.params.length then (do
      let table ← argumentsFrom args 0 fn.params
      match fn.body.substitute m.names table with
      | .ok body => evalBody body
      | .error e => ofAction (.ofOutcome (.failed (.runtime e)))) m
    else
      raise .invalidArguments f.name f.mark
        ("expected " ++ toString fn.params.length ++ " arguments, got " ++ toString args.length) m

/-- The value of an expression, with calls of defined functions nested at most `bound` deep. -/
def eval : Nat → Expr τ → Guarded τ Value
  | 0 => evalWith fun _ _ => ofAction (.ofOutcome .unfinished)
  | bound + 1 => evalWith (applyFunction (eval bound))

/-- The value of an expression that bounds a loop and must be a number. -/
def evalNumber (bound : Nat) (e : Expr τ) : Guarded τ Float := do
  match ← eval bound e with
  | .scalar x => return x
  | .list vs => raise .expectedScalar "" e.mark ("loop bound is " ++ (Value.list vs).render)

/-! ### Statements -/

/-- Declares a variable. -/
def runDeclare (bound : Nat) (x : Ident τ) (e : Expr τ) : Guarded τ Unit := do
  ofAction (Action.refuseTaken x)
  let v ← eval bound e
  bindNew x (.value v)

/-- Defines a function.  That its name is free is not looked at again. -/
def runDefine (f : Ident τ) (params : List (Ident τ)) (body : Expr τ) : Guarded τ Unit := do
  ofAction (Action.refuseTaken f)
  match Stmt.repeatedParam? [] params with
  | some p => raise .redeclaration p.name p.mark ("duplicate parameter of " ++ Text.quote f.name)
  | none => put f.name (.function ⟨f.name, params.map Ident.name, body⟩)

/-- Prints the value of an expression. -/
def runPrint (bound : Nat) (mark : τ) (e : Expr τ) : Guarded τ Unit := do
  let v ← eval bound e
  ofAction (Action.printLine mark v.render)

/-- Binds a name to the value at the index `i`. -/
def runPairAt (bound : Nat) (es : List (Expr τ)) (i : Nat) : Expr τ → Guarded τ Unit
  | .name id => do
    ofAction (Action.refuseTaken id)
    let e ← element es i
    let v ← eval bound e
    bindNew id (.value v)
  | x => raise .expectedIdentifier "" x.mark ("got " ++ x.render)

/-- Binds names to the values from the index `i` on. -/
def runPairsFrom (bound : Nat) (es : List (Expr τ)) : Nat → List (Expr τ) → Guarded τ Unit
  | _, [] => pure ()
  | i, x :: xs => do
    runPairAt bound es i x
    runPairsFrom bound es (i + 1) xs

/-- Binds names to values pair by pair. -/
def runUnpack (bound : Nat) (mark : τ) (names values : Expr τ) : Guarded τ Unit :=
  match names, values with
  | .list _ xs, .list _ es =>
    if xs.length = es.length then runPairsFrom bound es 0 xs
    else
      raise .invalidListLength "" mark
        (toString xs.length ++ " names for " ++ toString es.length ++ " values")
  | .list _ _, e => raise .expectedList "" e.mark ("right side of destructuring is " ++ e.render)
  | e, _ => raise .expectedList "" e.mark ("left side of destructuring is " ++ e.render)

/-- Runs a counting loop around `body`. -/
def runCount (bound : Nat) (start stop : Expr τ) (var : Ident τ) (step : Expr τ)
    (body : Guarded τ Unit) : Guarded τ Unit := do
  let a ← evalNumber bound start
  let b ← evalNumber bound stop
  let s ← evalNumber bound step
  inFrame .loop do
    bindNew var (.value (.scalar a))
    countUp (fun i => do
      ofAction (Action.assign var (.scalar i))
      inFrame .block body) b s bound a

/-- Runs a loop over a list around `body`. -/
def runEach (bound : Nat) (var : Ident τ) (source : Expr τ) (body : Guarded τ Unit) :
    Guarded τ Unit := do
  match ← eval bound source with
  | .scalar x => raise .expectedList "" source.mark ("for-loop over " ++ (Value.scalar x).render)
  | .list vs =>
    if vs.length = 0 then raise .emptyList "" source.mark ""
    else
      inFrame .loop do
        let v ← element vs 0
        bindNew var (.value v)
        forEach (fun w => do
          inFrame .block body
          ofAction (Action.assign var w)) (vs.drop 1)

mutual

/-- Runs a statement. -/
def run (bound : Nat) : Stmt τ → Guarded τ Unit
  | .declare _ x e => runDeclare bound x e
  | .define f params body => runDefine f params body
  | .print m e => runPrint bound m e
  | .count _ a b i s body => runCount bound a b i s (runAll bound body)
  | .each _ i e body => runEach bound i e (runAll bound body)
  | .block _ body => inFrame .block (runAll bound body)
  | .unpack m names values => runUnpack bound m names values

/-- Runs statements in order, up to the first that fails. -/
def runAll (bound : Nat) : List (Stmt τ) → Guarded τ Unit
  | [] => pure ()
  | s :: ss => do
    run bound s
    runAll bound ss

end

/-! ### Guarded steps are the steps themselves -/

theorem bind_apply (x : Guarded τ α) (f : α → Guarded τ β) (m : Machine τ) :
    (x >>= f) m = match x m with
      | .error b => .error b
      | .ok (.done a, m') => f a m'
      | .ok (.failed e, m') => .ok (.failed e, m')
      | .ok (.unfinished, m') => .ok (.unfinished, m') := rfl

theorem pure_bind (a : α) (f : α → Guarded τ β) : (pure a >>= f) = f a := rfl

theorem ofAction_apply_of_faultless {x : Action τ α} {m : Machine τ} (h : (x m).1.Faultless) :
    ofAction x m = .ok (x m) := by
  rw [ofAction]
  split
  · next f _ hx =>
    rw [hx] at h
    exact absurd rfl (h f)
  · rfl

theorem ofAction_bind (x : Action τ α) (f : α → Action τ β) :
    ofAction (x >>= f) = ofAction x >>= fun a => ofAction (f a) := by
  funext m
  rw [bind_apply]
  simp only [ofAction, Action.bind_apply]
  rcases x m with ⟨a | e | _, m'⟩
  · rfl
  · -- A failure ends both sides, and a fault is a breach in both.
    cases e <;> rfl
  · rfl

theorem element_of_lt {as : List α} {i : Nat} (h : i < as.length) :
    (element as i : Guarded τ α) = pure (as.get ⟨i, h⟩) := by
  funext m
  rw [element, List.getElem?_eq_getElem h]
  rfl

/-- A name that is found free is bound, so nothing is refused. -/
theorem bindNew_eq (id : Ident τ) (b : Binding τ) :
    bindNew id b = ofAction (Action.bindNew id b) := by
  funext m
  rw [bindNew, bind_apply]
  simp only [ofAction, Action.refuseTaken, Action.bindNew]
  by_cases htaken : m.names.isTaken id.name = true
  · simp only [if_pos htaken]
    rfl
  · have hfree := Names.has_eq_false_of_not_isTaken htaken
    simp only [if_neg htaken, put, Scope.put, hfree, Bool.false_eq_true, if_false]
    cases m.names.frames <;> rfl

/-- A frame around growth is there to be closed. -/
theorem inFrame_eq {x : Action τ Unit} (hx : Action.Grows x) (kind : FrameKind) :
    inFrame kind (ofAction x) = ofAction (Action.inFrame kind x) := by
  funext m
  obtain ⟨names, hpop⟩ :=
    Scope.pop_of_extends_push (hx { m with names := m.names.push kind })
  simp only [inFrame, ofAction, Action.inFrame]
  rcases hxm : x { m with names := m.names.push kind } with ⟨a | e | _, m'⟩
  · rw [hxm] at hpop
    simp only [hpop]
  · rw [hxm] at hpop
    cases e <;> simp only [hpop]
  · rw [hxm] at hpop
    simp only [hpop]

theorem forEach_eq (act : α → Action τ Unit) (as : List α) :
    forEach (fun a => ofAction (act a)) as = ofAction (Action.forEach act as) := by
  induction as with
  | nil => rfl
  | cons a as ih => rw [forEach, ih, ← ofAction_bind, Action.forEach_cons]

theorem countUp_eq (act : Float → Action τ Unit) (stop step : Float) (bound : Nat) (i : Float) :
    countUp (fun i => ofAction (act i)) stop step bound i
      = ofAction (Action.countUp act stop step bound i) := by
  induction bound generalizing i with
  | zero =>
    rw [countUp, Action.countUp_zero]
    split <;> rfl
  | succ bound ih =>
    rw [countUp, Action.countUp_succ, ih, ← ofAction_bind]
    split <;> rfl

/-! ### Values -/

/-- What a broadcast gives, or the error that two lists do not fit. -/
def fit (mark : τ) : Except Value.Mismatch α → Guarded τ α
  | .ok a => pure a
  | .error m => raise .invalidListLength "" mark (toString m.left ++ " != " ++ toString m.right)

theorem fit_bind (mark : τ) (x : Except Value.Mismatch α) (f : α → Except Value.Mismatch β) :
    fit mark (x >>= f) = fit mark x >>= fun a => fit mark (f a) := by
  cases x <;> rfl

mutual

theorem broadcast_eq (mark : τ) (f : Float → Float → Float) :
    (l r : Value) → broadcast mark f l r = fit mark (Value.broadcast f l r)
  | .scalar _, _ => by rw [broadcast, Value.broadcast]; rfl
  | .list _, .scalar _ => by rw [broadcast, Value.broadcast]; rfl
  | .list ls, .list rs => by
    rw [broadcast, Value.broadcast]
    split
    · next hlen =>
      rw [fit_bind, broadcastFrom_eq mark f rs 0 ls (by omega), List.drop_zero]
      rfl
    · rfl

/-- The elements of the first list have partners at their indices: the lists are of one length. -/
theorem broadcastFrom_eq (mark : τ) (f : Float → Float → Float) (rs : List Value) (i : Nat) :
    (ls : List Value) → rs.length = i + ls.length →
      broadcastFrom mark f rs i ls = fit mark (Value.broadcastAll f ls (rs.drop i))
  | [], _ => by rw [broadcastFrom, Value.broadcastAll]; rfl; simp
  | l :: ls, hlen => by
    have hi : i < rs.length := by rw [hlen, List.length_cons]; omega
    have hrest : rs.length = (i + 1) + ls.length := by rw [hlen, List.length_cons]; omega
    rw [broadcastFrom, element_of_lt hi, pure_bind, List.drop_eq_getElem_cons hi,
      Value.broadcastAll, fit_bind, broadcast_eq mark f l]
    congr 1
    funext v
    rw [fit_bind, broadcastFrom_eq mark f rs (i + 1) ls hrest]
    rfl

end

theorem applyOperator_eq (mark : τ) (op : String) (l r : Value) :
    applyOperator mark op l r = ofAction (.ofOutcome (ListCalc.applyOperator mark op l r)) := by
  rw [applyOperator, ListCalc.applyOperator]
  cases Operator.ofText? op with
  | none => rfl
  | some o =>
    dsimp only
    rw [broadcast_eq]
    cases Value.broadcast o.onNumbers l r <;> rfl

/-! ### Expressions -/

/-- Two computations from the names in scope, one after the other, are one such computation. -/
theorem query_bind (f : Names τ → Outcome τ α) (g : α → Names τ → Outcome τ β) :
    (ofAction (.query f) >>= fun a => ofAction (.query (g a)))
      = ofAction (.query fun σ => f σ >>= fun a => g a σ) := by
  rw [← ofAction_bind]
  congr 1
  funext m
  rw [Action.bind_apply, Action.query]
  cases hf : f m.names <;> simp only [Action.query, hf] <;> rfl

theorem query_map (f : Names τ → Outcome τ α) (g : α → β) :
    (ofAction (.query f) >>= fun a => pure (g a))
      = ofAction (.query fun σ => f σ >>= fun a => pure (g a)) :=
  query_bind f fun a _ => pure (g a)

section

variable {apply : Ident τ → List (Expr τ) → Guarded τ Value}
  {apply' : Names τ → Ident τ → List (Expr τ) → Outcome τ Value}

mutual

/-- The checks change nothing in an expression if they change nothing in its calls. -/
theorem evalWith_eq
    (happly : ∀ f args, apply f args = ofAction (.query fun σ => apply' σ f args)) :
    (e : Expr τ) → evalWith apply e = ofAction (.query fun σ => e.evalWith σ (apply' σ))
  | .name id => by
    funext m
    simp only [evalWith, Expr.evalWith, ofAction, Action.query]
    cases m.names.value? id.name <;> rfl
  | .number mark text => by
    simp only [evalWith, Expr.evalWith]
    exact query_map (fun _ => readNumber mark text) _
  | .negative mark text => by
    simp only [evalWith, Expr.evalWith]
    exact query_map (fun _ => readNumber mark text) _
  | .binary mark op l r => by
    have hr (a : Value) : (evalWith apply r >>= fun b => applyOperator mark op a b)
        = ofAction (.query fun σ => r.evalWith σ (apply' σ) >>= fun b =>
            ListCalc.applyOperator mark op a b) := by
      simp only [evalWith_eq happly r, applyOperator_eq]
      exact query_bind _ fun b _ => ListCalc.applyOperator mark op a b
    simp only [evalWith, Expr.evalWith, evalWith_eq happly l, hr]
    exact query_bind _ _
  | .list _ es => by
    simp only [evalWith, Expr.evalWith, evalAllWith_eq happly es, query_map]
  | .call f args => by
    simp only [evalWith, Expr.evalWith]
    cases ListCalc.function? f.name with
    | none => exact happly f args
    | some g =>
      match args with
      | [] => rfl
      | [a] =>
        simp only [evalElementWith, evalWith_eq happly a, List.length_singleton, if_true, query_map]
      | _ :: _ :: rest =>
        have hlen : (rest.length + 2 = 1) = False := by simp
        simp only [List.length_cons, hlen, if_false]
        rfl

theorem evalAllWith_eq
    (happly : ∀ f args, apply f args = ofAction (.query fun σ => apply' σ f args)) :
    (es : List (Expr τ)) →
      evalAllWith apply es = ofAction (.query fun σ => Expr.evalAllWith σ (apply' σ) es)
  | [] => by
    simp only [evalAllWith, Expr.evalAllWith]
    rfl
  | e :: es => by
    have hes (v : Value) : (evalAllWith apply es >>= fun vs => pure (v :: vs))
        = ofAction (.query fun σ => Expr.evalAllWith σ (apply' σ) es >>= fun vs =>
            pure (v :: vs)) := by
      rw [evalAllWith_eq happly es, query_map]
    simp only [evalAllWith, Expr.evalAllWith, evalWith_eq happly e, hes]
    exact query_bind _ _

end

end

/-- Parameters have arguments at their indices if they are as many. -/
theorem argumentsFrom_eq (args : List (Expr τ)) (i : Nat) (params : List String)
    (hlen : args.length = i + params.length) :
    argumentsFrom args i params = (pure (params.zip (args.drop i)) : Guarded τ _) := by
  induction params generalizing i with
  | nil => rfl
  | cons p ps ih =>
    have hi : i < args.length := by rw [hlen, List.length_cons]; omega
    have hrest : args.length = (i + 1) + ps.length := by rw [hlen, List.length_cons]; omega
    rw [argumentsFrom, element_of_lt hi, pure_bind, ih (i + 1) hrest, pure_bind,
      List.drop_eq_getElem_cons hi, List.zip_cons_cons]
    rfl

theorem applyFunction_eq {evalBody : Expr τ → Guarded τ Value}
    {evalBody' : Names τ → Expr τ → Outcome τ Value}
    (hbody : ∀ e, evalBody e = ofAction (.query fun σ => evalBody' σ e)) (f : Ident τ)
    (args : List (Expr τ)) :
    applyFunction evalBody f args
      = ofAction (.query fun σ => Expr.applyFunction σ (evalBody' σ) f args) := by
  funext m
  rw [applyFunction]
  simp only [ofAction, Action.query, Expr.applyFunction]
  cases m.names.function? f.name with
  | none => rfl
  | some fn =>
    dsimp only
    by_cases hlen : args.length = fn.params.length
    · rw [if_pos hlen, if_pos hlen, argumentsFrom_eq args 0 fn.params (by omega), pure_bind,
        List.drop_zero]
      cases fn.body.substitute m.names (fn.params.zip args) with
      | ok body => dsimp only; rw [hbody]; rfl
      | error e => rfl
    · rw [if_neg hlen, if_neg hlen]
      rfl

/-- **A guarded evaluation is the evaluation itself**, with its faults as breaches. -/
theorem eval_eq (bound : Nat) (e : Expr τ) : eval bound e = ofAction (e.evalNow bound) := by
  induction bound generalizing e with
  | zero => exact @evalWith_eq τ _ (fun _ _ _ => .unfinished) (fun _ _ => rfl) e
  | succ bound ih => exact evalWith_eq (applyFunction_eq ih) e

theorem evalNumber_eq (bound : Nat) (e : Expr τ) :
    evalNumber bound e = ofAction (e.evalNumber bound) := by
  rw [evalNumber, Expr.evalNumber, ofAction_bind, eval_eq]
  congr 1
  funext v
  cases v <;> rfl

/-! ### Statements -/

theorem runDeclare_eq (bound : Nat) (x : Ident τ) (e : Expr τ) :
    runDeclare bound x e = ofAction (Stmt.runDeclare bound x e) := by
  simp only [runDeclare, Stmt.runDeclare, ofAction_bind, eval_eq, bindNew_eq]

/-- A name that was found free needs no second look. -/
theorem runDefine_eq (f : Ident τ) (params : List (Ident τ)) (body : Expr τ) :
    runDefine f params body = ofAction (Stmt.runDefine f params body) := by
  rw [runDefine, Stmt.runDefine]
  cases Stmt.repeatedParam? [] params with
  | some p => rw [ofAction_bind]; rfl
  | none =>
    dsimp only
    rw [Action.refuseTaken_bindNew, ← bindNew_eq, bindNew]

theorem runPrint_eq (bound : Nat) (mark : τ) (e : Expr τ) :
    runPrint bound mark e = ofAction (Stmt.runPrint bound mark e) := by
  simp only [runPrint, Stmt.runPrint, ofAction_bind, eval_eq]

/-- Names have values at their indices if they are as many. -/
theorem runPairsFrom_eq (bound : Nat) (es : List (Expr τ)) (i : Nat) (xs : List (Expr τ))
    (hlen : es.length = i + xs.length) :
    runPairsFrom bound es i xs
      = ofAction (Action.forEach (Stmt.runPair bound) (xs.zip (es.drop i))) := by
  induction xs generalizing i with
  | nil => rfl
  | cons x xs ih =>
    have hi : i < es.length := by rw [hlen, List.length_cons]; omega
    have hrest : es.length = (i + 1) + xs.length := by rw [hlen, List.length_cons]; omega
    rw [runPairsFrom, ih (i + 1) hrest, List.drop_eq_getElem_cons hi, List.zip_cons_cons,
      Action.forEach_cons, ofAction_bind]
    congr 1
    cases x with
    | name id =>
      simp only [runPairAt, element_of_lt hi, pure_bind]
      exact runDeclare_eq bound id _
    | _ => rfl

theorem runUnpack_eq (bound : Nat) (mark : τ) (names values : Expr τ) :
    runUnpack bound mark names values = ofAction (Stmt.runUnpack bound mark names values) := by
  cases names with
  | list m₁ xs =>
    cases values with
    | list m₂ es =>
      rw [runUnpack, Stmt.runUnpack]
      by_cases hlen : xs.length = es.length
      · rw [if_pos hlen, if_pos hlen, runPairsFrom_eq bound es 0 xs (by omega), List.drop_zero]
      · rw [if_neg hlen, if_neg hlen]
        rfl
    | _ => rfl
  | _ => rfl

theorem runCount_eq (bound : Nat) (start stop : Expr τ) (var : Ident τ) (step : Expr τ)
    {body : Action τ Unit} (hgrows : Action.Grows body) :
    runCount bound start stop var step (ofAction body)
      = ofAction (Stmt.runCount bound start stop var step body) := by
  have hturns (a b s : Float) :
      inFrame .loop (do
        bindNew var (.value (.scalar a))
        countUp (fun i => do
          ofAction (Action.assign var (.scalar i))
          inFrame .block (ofAction body)) b s bound a)
      = ofAction (Action.inFrame .loop do
        Action.bindNew var (.value (.scalar a))
        Action.countUp (fun i => do
          Action.assign var (.scalar i)
          Action.inFrame .block body) b s bound a) := by
    simp only [bindNew_eq, inFrame_eq hgrows, ← ofAction_bind, countUp_eq]
    exact inFrame_eq (Stmt.grows_countTurns hgrows var a b s bound) .loop
  simp only [runCount, Stmt.runCount, ofAction_bind, evalNumber_eq, hturns]

theorem runEach_eq (bound : Nat) (var : Ident τ) (source : Expr τ) {body : Action τ Unit}
    (hgrows : Action.Grows body) :
    runEach bound var source (ofAction body)
      = ofAction (Stmt.runEach bound var source body) := by
  rw [runEach, Stmt.runEach, ofAction_bind, eval_eq]
  congr 1
  funext v
  match v with
  | .scalar _ => rfl
  | .list [] => rfl
  | .list (v :: vs) =>
    -- The list is not empty, so its first element is there.
    have hpos : 0 < (v :: vs).length := Nat.succ_pos vs.length
    simp only [if_neg (Nat.ne_of_gt hpos), element_of_lt hpos, pure_bind, bindNew_eq,
      inFrame_eq hgrows, ← ofAction_bind, forEach_eq]
    exact inFrame_eq (Stmt.grows_listTurns hgrows var v vs) .loop

mutual

/-- **A guarded run of a statement is the run itself**, with its faults as breaches: nothing that
is to be bound is refused, and no element is picked that is not there. -/
theorem run_eq (bound : Nat) : (s : Stmt τ) → run bound s = ofAction (s.run bound)
  | .declare _ x e => runDeclare_eq bound x e
  | .define f params body => runDefine_eq f params body
  | .print m e => runPrint_eq bound m e
  | .count _ a b i s body => by
    rw [run, Stmt.run, runAll_eq bound body]
    exact runCount_eq bound a b i s (Stmt.grows_runAll bound body)
  | .each _ i e body => by
    rw [run, Stmt.run, runAll_eq bound body]
    exact runEach_eq bound i e (Stmt.grows_runAll bound body)
  | .block _ body => by
    rw [run, Stmt.run, runAll_eq bound body]
    exact inFrame_eq (Stmt.grows_runAll bound body) .block
  | .unpack m names values => runUnpack_eq bound m names values

theorem runAll_eq (bound : Nat) :
    (ss : List (Stmt τ)) → runAll bound ss = ofAction (Stmt.runAll bound ss)
  | [] => rfl
  | s :: ss => by rw [runAll, Stmt.runAll, ofAction_bind, run_eq bound s, runAll_eq bound ss]

end

end Guarded

/-! ### Parsed programs and their expressions -/

namespace Expr

mutual

/-- An expression and all expressions inside it. -/
def parts : Expr τ → List (Expr τ)
  | binary m op l r => binary m op l r :: (l.parts ++ r.parts)
  | call f args => call f args :: partsAll args
  | list m es => list m es :: partsAll es
  | e => [e]

/-- Some expressions and all expressions inside them. -/
def partsAll : List (Expr τ) → List (Expr τ)
  | [] => []
  | e :: es => e.parts ++ partsAll es

end

mutual

theorem legible_parts : (e : Expr τ) → e.Legible → ∀ x ∈ e.parts, x.Legible
  | name _, h => List.forall_mem_singleton.mpr h
  | number _ _, h => List.forall_mem_singleton.mpr h
  | negative _ _, h => List.forall_mem_singleton.mpr h
  | binary _ _ l r, h => by
    rw [parts, List.forall_mem_cons, List.forall_mem_append]
    exact ⟨h, legible_parts l h.2.1, legible_parts r h.2.2⟩
  | call _ args, h => by
    rw [parts, List.forall_mem_cons]
    exact ⟨h, legible_partsAll args h.2⟩
  | list _ es, h => by
    rw [parts, List.forall_mem_cons]
    exact ⟨h, legible_partsAll es h⟩

theorem legible_partsAll : (es : List (Expr τ)) → AllLegible es → ∀ x ∈ partsAll es, x.Legible
  | [], _ => by simp [partsAll]
  | e :: es, h => by
    rw [partsAll, List.forall_mem_append]
    exact ⟨legible_parts e h.1, legible_partsAll es h.2⟩

end

end Expr

namespace Stmt

/-- The expressions of a statement, without those of its body. -/
def exprs : Stmt τ → List (Expr τ)
  | declare _ _ e => [e]
  | define _ _ body => [body]
  | print _ e => [e]
  | count _ a b _ s _ => [a, b, s]
  | each _ _ e _ => [e]
  | block _ _ => []
  | unpack _ l r => [l, r]

theorem legible_exprs {s : Stmt τ} (h : s.Legible) : ∀ e ∈ s.exprs, e.Legible := by
  cases s with
  | declare _ _ e => exact List.forall_mem_singleton.mpr h.2
  | define _ _ body => exact List.forall_mem_singleton.mpr h.2.2
  | print _ e => exact List.forall_mem_singleton.mpr h
  | count _ a b _ s _ => simpa [exprs] using ⟨h.1, h.2.1, h.2.2.2.1⟩
  | each _ _ e _ => exact List.forall_mem_singleton.mpr h.2.1
  | block _ _ => simp [exprs]
  | unpack _ l r => simpa [exprs] using h.2

mutual

theorem legible_nested : (s : Stmt τ) → s.Legible → ∀ x ∈ nested s, x.Legible
  | declare _ _ _, h => List.forall_mem_singleton.mpr h
  | define _ _ _, h => List.forall_mem_singleton.mpr h
  | print _ _, h => List.forall_mem_singleton.mpr h
  | unpack _ _ _, h => List.forall_mem_singleton.mpr h
  | count _ _ _ _ _ body, h => by
    rw [nested, List.forall_mem_cons]
    exact ⟨h, legible_nestedAll body h.2.2.2.2⟩
  | each _ _ _ body, h => by
    rw [nested, List.forall_mem_cons]
    exact ⟨h, legible_nestedAll body h.2.2⟩
  | block _ body, h => by
    rw [nested, List.forall_mem_cons]
    exact ⟨h, legible_nestedAll body h⟩

theorem legible_nestedAll :
    (ss : List (Stmt τ)) → AllLegible ss → ∀ x ∈ nestedAll ss, x.Legible
  | [], _ => by simp [nestedAll]
  | s :: ss, h => by
    rw [nestedAll, List.forall_mem_append]
    exact ⟨legible_nested s h.1, legible_nestedAll ss h.2⟩

end

end Stmt

namespace Program

/-- The program is that of a source. -/
def Parsed (p : Program Token) : Prop := ∃ file source, parse file source = .ok p

/-- All expressions of a program: those of its statements at any depth, and those inside them. -/
def parts (p : Program τ) : List (Expr τ) :=
  Expr.partsAll ((Stmt.nestedAll p).flatMap Stmt.exprs)

theorem legible_parts {p : Program τ} (hp : Stmt.AllLegible p) : ∀ e ∈ p.parts, e.Legible := by
  refine Expr.legible_partsAll _ (Expr.allLegible_iff.mpr fun e he => ?_)
  obtain ⟨s, hs, he⟩ := List.mem_flatMap.mp he
  exact Stmt.legible_exprs (Stmt.legible_nestedAll p hp s hs) e he

end Program

/-- A call with a parsed program, or with an expression of one. -/
def Call.Parsed : Call Token → Prop
  | interpret _ p => Program.Parsed p
  | execute _ p => Program.Parsed p
  | evaluate _ e => ∃ p : Program Token, p.Parsed ∧ e ∈ p.parts
  | close => True

theorem Call.Parsed.legible {c : Call Token} (h : c.Parsed) : c.Legible := by
  cases c with
  | interpret bound p =>
    obtain ⟨file, source, hparse⟩ := h
    exact allLegible_of_parse hparse
  | execute bound p =>
    obtain ⟨file, source, hparse⟩ := h
    exact allLegible_of_parse hparse
  | evaluate bound e =>
    obtain ⟨p, ⟨file, source, hparse⟩, he⟩ := h
    exact Program.legible_parts (allLegible_of_parse hparse) e he
  | close => trivial

/-! ### Sessions -/

namespace Session

/-- A call with the conditions of all its steps checked. -/
def performGuarded (s : Session τ) : Call τ → Except Breach (Outcome τ Unit × Session τ)
  | .interpret bound p => do
    let (o, m) ← Guarded.inFrame .program (Guarded.runAll bound p) s.machine
    return (o, { s with machine := m })
  | .execute bound p => do
    let (o, m) ← Guarded.runAll bound p s.opened.machine
    return (o, { s.opened with machine := m })
  | .evaluate bound e => do
    let (o, _) ← Guarded.eval bound e s.machine
    return ((do let _ ← o), s)
  | .close =>
    if s.isOpen then
      match s.machine.names.pop with
      | .ok (_, names) => .ok (.done (), ⟨{ s.machine with names }, false⟩)
      | .error f => .error (.fault f)
    else .ok (.done (), s)

/-- An operator that no one knows is a breach. -/
example (out : Writer) : (start out).performGuarded
    (.evaluate 0 (.binary () "%" (.list () []) (.list () [])))
    = .error (.fault (.unknownOperator "%")) := rfl

/-- The conditions hold in a call that causes no fault. -/
theorem performGuarded_of_faultless {s : Session τ} {c : Call τ} (h : (s.perform c).1.Faultless) :
    s.performGuarded c = .ok (s.perform c) := by
  cases c with
  | interpret bound p =>
    rw [performGuarded, Guarded.runAll_eq, Guarded.inFrame_eq (Stmt.grows_runAll bound p),
      Guarded.ofAction_apply_of_faultless h]
    rfl
  | execute bound p =>
    rw [performGuarded, Guarded.runAll_eq, Guarded.ofAction_apply_of_faultless h]
    rfl
  | evaluate bound e =>
    have hvalue : (e.evalNow bound s.machine).1.Faultless := by
      intro f hf
      refine h f ?_
      show ((e.evalNow bound s.machine).1 >>= fun _ => pure ()) = _
      rw [hf]
      rfl
    rw [performGuarded, Guarded.eval_eq, Guarded.ofAction_apply_of_faultless hvalue]
    rfl
  | close =>
    rw [performGuarded]
    simp only [perform, close] at h ⊢
    by_cases hopen : s.isOpen = true
    · rw [if_pos hopen] at h
      rw [if_pos hopen, if_pos hopen]
      cases hpop : s.machine.names.pop with
      | ok r => rfl
      | error f =>
        rw [hpop] at h
        exact absurd rfl (h f)
    · rw [if_neg hopen, if_neg hopen]

/-- **Calls with parsed programs never meet a condition that fails.**  In whatever order programs
of sources are run in a session, in frames of their own or in the lasting one, their expressions
are evaluated and the session is closed, with whatever writers and for however many steps: no
frame is missing, no operator is unknown, no free name is assigned to, no name that is bound is
refused, and no element is missing at its index. -/
theorem guarded_perform {s : Session Token} (hs : s.Reachable Call.Parsed) {c : Call Token}
    (hc : c.Parsed) :
    s.performGuarded c = .ok (s.perform c) ∧ (s.perform c).1.Faultless := by
  have hlegible := hs.legible fun c hc => hc.legible
  obtain ⟨hfaultless, -⟩ := faultless_perform hs.hasLastingFrame hlegible hc.legible
  exact ⟨performGuarded_of_faultless hfaultless, hfaultless⟩

/-- A function that is defined in the lasting frame is called in an unpacking inside a loop over a
list, and there is room for one line only. -/
theorem guarded_perform_loop :
    ∃ p q : Program Token,
      parse "first" "f(x) = [x, 1] * [2, x]" = .ok p ∧
      parse "second" "for i in [1, 2, 3] \x7b\n  [a, b] = [i, f(i)]\n  a + b\n\x7d" = .ok q ∧
      let s := ((start (.fresh (some 1))).perform (.execute 2 p)).2
      s.performGuarded (.execute 2 q) = .ok (s.perform (.execute 2 q)) ∧
        (s.perform (.execute 2 q)).1.Faultless := by
  have hfirst : (parse "first" "f(x) = [x, 1] * [2, x]").toBool = true := by decide +kernel
  have hsecond : (parse "second"
      "for i in [1, 2, 3] \x7b\n  [a, b] = [i, f(i)]\n  a + b\n\x7d").toBool = true := by
    decide +kernel
  obtain ⟨p, hp⟩ := exists_of_toBool hfirst
  obtain ⟨q, hq⟩ := exists_of_toBool hsecond
  refine ⟨p, q, hp, hq, guarded_perform (.step (.start _) ?_) ?_⟩
  · exact ⟨_, _, hp⟩
  · exact ⟨_, _, hq⟩

end Session

end ListCalc
