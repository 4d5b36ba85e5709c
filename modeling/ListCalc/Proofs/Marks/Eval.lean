/-
Evaluation does not look at marks.

Marks go through evaluation untouched: they are copied into substituted bodies
and into failures, and no decision depends on them.  So evaluating syntax with
other marks gives the same value, or the same failure with another mark
(`eval_map`).
-/
import ListCalc.Expr.Eval
import ListCalc.Proofs.Marks

namespace ListCalc

variable {α β τ υ : Type}

/-! ### Scopes -/

theorem lookup_map_snd (g : α → β) (entries : List (String × α)) (name : String) :
    (entries.map fun e => (e.1, g e.2)).lookup name = (entries.lookup name).map g := by
  induction entries with
  | nil => rfl
  | cons e entries ih =>
    rw [List.map_cons, List.lookup_cons, List.lookup_cons, ih]
    cases name == e.1 <;> rfl

namespace Scope

/-- The scope with other meanings. -/
def map (g : α → β) (s : Scope α) : Scope β :=
  ⟨s.entries.map fun e => (e.1, g e.2), s.frames⟩

@[simp] theorem get?_map (g : α → β) (s : Scope α) (name : String) :
    (s.map g).get? name = (s.get? name).map g :=
  lookup_map_snd g s.entries name

@[simp] theorem has_map (g : α → β) (s : Scope α) (name : String) :
    (s.map g).has name = s.has name := by
  simp [has]

theorem pop_map (g : α → β) (s : Scope α) :
    (s.map g).pop = s.pop.map fun r => (r.1, r.2.map g) := by
  obtain ⟨entries, _ | ⟨top, rest⟩⟩ := s
  · rfl
  · simp only [pop, map, Except.map, List.filter_map]
    rfl

theorem put_map (g : α → β) (s : Scope α) (name : String) (a : α) :
    (s.map g).put name (g a) = (s.put name a).map fun r => (r.1, r.2.map g) := by
  rw [put, put, has_map]
  -- Whether a name is bound does not depend on what it means.
  split
  · rfl
  · obtain ⟨entries, _ | ⟨top, rest⟩⟩ := s <;> rfl

theorem set_map (g : α → β) (s : Scope α) (name : String) (a : α) :
    (s.map g).set name (g a) = (s.set name a).map (map g) := by
  rw [set, set, has_map]
  split
  · simp only [map, Except.map, List.map_map, Except.ok.injEq, Scope.mk.injEq, and_true]
    -- The entry that is replaced is the same one, since names are kept.
    refine List.map_congr_left fun e _ => ?_
    simp only [Function.comp]
    split <;> rfl
  · rfl

end Scope

/-! ### Meanings -/

/-- The function with other marks. -/
def Function.map (f : τ → υ) (fn : Function τ) : Function υ := ⟨fn.name, fn.params, fn.body.map f⟩

/-- The meaning with other marks. -/
def Binding.map (f : τ → υ) : Binding τ → Binding υ
  | value v => .value v
  | function fn => .function (fn.map f)

namespace Names

/-- The names with other marks in their meanings. -/
def map (f : τ → υ) (σ : Names τ) : Names υ := Scope.map (Binding.map f) σ

@[simp] theorem value?_map (f : τ → υ) (σ : Names τ) (name : String) :
    (σ.map f).value? name = σ.value? name := by
  rw [value?, value?, map, Scope.get?_map]
  cases constant? name with
  | some x => rfl
  | none => rcases σ.get? name with _ | ⟨_ | _⟩ <;> rfl

@[simp] theorem function?_map (f : τ → υ) (σ : Names τ) (name : String) :
    (σ.map f).function? name = (σ.function? name).map (Function.map f) := by
  rw [function?, function?, map, Scope.get?_map]
  rcases σ.get? name with _ | ⟨_ | _⟩ <;> rfl

@[simp] theorem isTaken_map (f : τ → υ) (σ : Names τ) (name : String) :
    (σ.map f).isTaken name = σ.isTaken name := by
  rw [isTaken, isTaken, map, Scope.has_map]

end Names

/-! ### Failures and outcomes -/

/-- The failure with another mark. -/
def RuntimeError.map (f : τ → υ) (e : RuntimeError τ) : RuntimeError υ :=
  ⟨e.kind, e.name, f e.mark, e.detail⟩

/-- The failure with another mark. -/
def Failure.map (f : τ → υ) : Failure τ → Failure υ
  | runtime e => .runtime (e.map f)
  | literal m detail => .literal (f m) detail
  | write m reason => .write (f m) reason
  | fault x => .fault x

namespace Outcome

/-- The outcome with another mark on its failure. -/
def remark (f : τ → υ) : Outcome τ α → Outcome υ α
  | done a => .done a
  | failed e => .failed (e.map f)
  | unfinished => .unfinished

/-- What goes on after an outcome goes on after the same outcome with another mark. -/
theorem remark_bind (f : τ → υ) (o : Outcome τ α) {k : α → Outcome τ β} {k' : α → Outcome υ β}
    (hk : ∀ a, k' a = (k a).remark f) : (o.remark f >>= k') = (o >>= k).remark f := by
  cases o with
  | done a => exact hk a
  | failed e => rfl
  | unfinished => rfl

end Outcome

/-! ### Expressions -/

theorem applyOperator_map (f : τ → υ) (mark : τ) (op : String) (l r : Value) :
    applyOperator (f mark) op l r = (applyOperator mark op l r).remark f := by
  rw [applyOperator, applyOperator]
  cases Operator.ofText? op with
  | none => rfl
  | some o => cases hv : Value.broadcast o.onNumbers l r <;> simp only [hv] <;> rfl

theorem readNumber_map (f : τ → υ) (mark : τ) (text : String) :
    readNumber (f mark) text = (readNumber mark text).remark f := by
  rw [readNumber, readNumber]
  cases Number.read? text <;> rfl

namespace Expr

theorem length_mapAll (f : τ → υ) (es : List (Expr τ)) : (mapAll f es).length = es.length := by
  rw [mapAll_eq_map, List.length_map]

/-- The arguments with other marks. -/
def mapArgs (f : τ → υ) (args : List (String × Expr τ)) : List (String × Expr υ) :=
  args.map fun a => (a.1, a.2.map f)

theorem lookup_mapArgs (f : τ → υ) (args : List (String × Expr τ)) (name : String) :
    (mapArgs f args).lookup name = (args.lookup name).map (map f) :=
  lookup_map_snd (map f) args name

theorem zip_mapAll (f : τ → υ) (params : List String) (es : List (Expr τ)) :
    params.zip (mapAll f es) = mapArgs f (params.zip es) := by
  rw [mapAll_eq_map, List.zip_map_right]
  rfl

mutual

theorem substitute_map (f : τ → υ) (σ : Names τ) (args : List (String × Expr τ)) :
    (e : Expr τ) → (e.map f).substitute (σ.map f) (mapArgs f args)
      = match e.substitute σ args with
        | .ok e' => .ok (e'.map f)
        | .error x => .error (x.map f)
  | name id => by
    rw [map, substitute, substitute, Ident.map_name, lookup_mapArgs, Names.value?_map]
    cases args.lookup id.name with
    | some arg => rfl
    | none => cases σ.value? id.name <;> rfl
  | number m text => rfl
  | negative m text => rfl
  | binary m op l r => by
    rw [map, substitute, substitute, substitute_map f σ args l, substitute_map f σ args r]
    cases l.substitute σ args with
    | error x => rfl
    | ok l' => cases r.substitute σ args <;> rfl
  | call callee es => by
    rw [map, substitute, substitute, substituteAll_map f σ args es]
    cases substituteAll σ args es <;> rfl
  | list m es => by
    rw [map, substitute, substitute, substituteAll_map f σ args es]
    cases substituteAll σ args es <;> rfl

theorem substituteAll_map (f : τ → υ) (σ : Names τ) (args : List (String × Expr τ)) :
    (es : List (Expr τ)) → substituteAll (σ.map f) (mapArgs f args) (mapAll f es)
      = match substituteAll σ args es with
        | .ok es' => .ok (mapAll f es')
        | .error x => .error (x.map f)
  | [] => rfl
  | e :: es => by
    rw [mapAll, substituteAll, substituteAll, substitute_map f σ args e,
      substituteAll_map f σ args es]
    cases e.substitute σ args with
    | error x => rfl
    | ok e' => cases substituteAll σ args es <;> rfl

end

section

variable {apply : Ident τ → List (Expr τ) → Outcome τ Value}
  {apply' : Ident υ → List (Expr υ) → Outcome υ Value}

mutual

theorem evalWith_map (f : τ → υ) (σ : Names τ)
    (happly : ∀ id args, apply' (id.map f) (mapAll f args) = (apply id args).remark f) :
    (e : Expr τ) → (e.map f).evalWith (σ.map f) apply' = (e.evalWith σ apply).remark f
  | name id => by
    rw [map, evalWith, evalWith, Ident.map_name, Names.value?_map]
    cases σ.value? id.name <;> rfl
  | number m text => by
    rw [map, evalWith, evalWith, readNumber_map]
    exact Outcome.remark_bind f _ fun _ => rfl
  | negative m text => by
    rw [map, evalWith, evalWith, readNumber_map]
    exact Outcome.remark_bind f _ fun _ => rfl
  | binary m op l r => by
    rw [map, evalWith, evalWith, evalWith_map f σ happly l, evalWith_map f σ happly r]
    refine Outcome.remark_bind f _ fun a => ?_
    exact Outcome.remark_bind f _ fun b => applyOperator_map f m op a b
  | list m es => by
    rw [map, evalWith, evalWith, evalAllWith_map f σ happly es]
    exact Outcome.remark_bind f _ fun _ => rfl
  | call callee [] => by
    rw [map, evalWith, evalWith, Ident.map_name]
    cases ListCalc.function? callee.name with
    | none => exact happly callee []
    | some g => rfl
  | call callee [a] => by
    rw [map, evalWith, evalWith, Ident.map_name]
    cases ListCalc.function? callee.name with
    | none => exact happly callee [a]
    | some g =>
      simp only [mapAll]
      rw [evalWith_map f σ happly a]
      exact Outcome.remark_bind f _ fun _ => rfl
  | call callee (a :: b :: es) => by
    rw [map, evalWith, evalWith, Ident.map_name]
    cases ListCalc.function? callee.name with
    | none => exact happly callee (a :: b :: es)
    | some g =>
      -- The complaint counts the arguments, and there are as many of them.
      simp only [mapAll, List.length_cons, length_mapAll]
      rfl

theorem evalAllWith_map (f : τ → υ) (σ : Names τ)
    (happly : ∀ id args, apply' (id.map f) (mapAll f args) = (apply id args).remark f) :
    (es : List (Expr τ)) →
      evalAllWith (σ.map f) apply' (mapAll f es) = (evalAllWith σ apply es).remark f
  | [] => rfl
  | e :: es => by
    rw [mapAll, evalAllWith, evalAllWith, evalWith_map f σ happly e, evalAllWith_map f σ happly es]
    refine Outcome.remark_bind f _ fun v => ?_
    exact Outcome.remark_bind f _ fun vs => rfl

end

end

theorem applyFunction_map (f : τ → υ) (σ : Names τ) {evalBody : Expr τ → Outcome τ Value}
    {evalBody' : Expr υ → Outcome υ Value}
    (hbody : ∀ e, evalBody' (e.map f) = (evalBody e).remark f) (callee : Ident τ)
    (args : List (Expr τ)) :
    applyFunction (σ.map f) evalBody' (callee.map f) (mapAll f args)
      = (applyFunction σ evalBody callee args).remark f := by
  rw [applyFunction, applyFunction, Ident.map_name, Names.function?_map]
  cases σ.function? callee.name with
  | none => rfl
  | some fn =>
    -- The body and the arguments change their marks alike, and so does what is put together.
    simp only [Option.map_some, length_mapAll, Function.map, zip_mapAll, substitute_map]
    split
    · cases fn.body.substitute σ (fn.params.zip args) with
      | ok body => exact hbody body
      | error x => rfl
    · rfl

/-- The value of an expression with other marks is its value, and a failure differs in its mark
only. -/
theorem eval_map (f : τ → υ) (σ : Names τ) (bound : Nat) (e : Expr τ) :
    (e.map f).eval (σ.map f) bound = (e.eval σ bound).remark f := by
  -- The bound carries the induction: bodies are evaluated with fewer nested calls.
  induction bound generalizing e with
  | zero => exact evalWith_map f σ (fun _ _ => rfl) e
  | succ bound ih => exact evalWith_map f σ (applyFunction_map f σ ih) e

end Expr

end ListCalc
