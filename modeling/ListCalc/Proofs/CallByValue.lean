/-
Calls by value.

`Expr.eval` calls a defined function by putting the unevaluated arguments into
its body.  `Expr.byValue` is the evaluator one would expect instead: it computes
the arguments once, from the left, and then the body with the parameters bound to
their values in an environment of their own.  A name in a body is looked up among
the parameters first and then among the constants and the names in scope; a call
inside the body starts a new environment.

The two differ on programs that fail (an argument that is never used is not
computed by substitution) but not on values: `eval_of_byValue`.  The induction
keeps, for the environment of the call at hand, the argument expressions that
substitution uses in its place, each with the value it evaluates to (`Stands`).
-/
import Mathlib.Data.List.Forall2
import ListCalc.Expr.Eval

namespace ListCalc

variable {τ : Type}

theorem Outcome.bind_eq_done_iff {α β : Type} {x : Outcome τ α} {f : α → Outcome τ β} {b : β} :
    (x >>= f) = .done b ↔ ∃ a, x = .done a ∧ f a = .done b := by
  cases x with
  | done a =>
    constructor
    · intro h
      exact ⟨a, rfl, h⟩
    · rintro ⟨a', ha, h⟩
      obtain rfl := Outcome.done.inj ha
      exact h
  | failed e =>
    constructor
    · intro h
      cases h
    · rintro ⟨a, ha, -⟩
      cases ha
  | unfinished =>
    constructor
    · intro h
      cases h
    · rintro ⟨a, ha, -⟩
      cases ha

namespace Expr

/-! ### The reference evaluator -/

mutual

/-- The value of an expression whose parameters have the values that `env` lists, where `apply`
carries out the calls of defined functions. -/
def byValueWith (σ : Names τ) (apply : Ident τ → List Value → Outcome τ Value)
    (env : List (String × Value)) : Expr τ → Outcome τ Value
  | name id =>
    match env.lookup id.name with
    | some v => .done v
    | none =>
      match σ.value? id.name with
      | some v => .done v
      | none => .raise .undefinedVariable id.name id.mark ""
  | number m text => do
    let x ← readNumber m text
    return .scalar x
  | negative m text => do
    let x ← readNumber m text
    return .scalar (-x)
  | binary m op l r => do
    let a ← byValueWith σ apply env l
    let b ← byValueWith σ apply env r
    applyOperator m op a b
  | list _ es => do
    let vs ← byValueAllWith σ apply env es
    return .list vs
  | call f args =>
    match ListCalc.function? f.name with
    | none => do
      let vs ← byValueAllWith σ apply env args
      apply f vs
    | some g =>
      match args with
      | [a] => do
        let v ← byValueWith σ apply env a
        return v.map g
      | _ =>
        .raise .invalidArguments f.name f.mark ("expected 1 argument, got " ++ toString args.length)

/-- The values of some expressions, from the left. -/
def byValueAllWith (σ : Names τ) (apply : Ident τ → List Value → Outcome τ Value)
    (env : List (String × Value)) : List (Expr τ) → Outcome τ (List Value)
  | [] => .done []
  | e :: es => do
    let v ← byValueWith σ apply env e
    let vs ← byValueAllWith σ apply env es
    return v :: vs

end

/-- Calls a defined function: `evalBody` gets its body and the values of its parameters. -/
def applyToValues (σ : Names τ) (evalBody : List (String × Value) → Expr τ → Outcome τ Value)
    (f : Ident τ) (vs : List Value) : Outcome τ Value :=
  match σ.function? f.name with
  | none => .raise .undefinedFunction f.name f.mark ""
  | some fn =>
    if vs.length = fn.params.length then evalBody (fn.params.zip vs) fn.body
    else
      .raise .invalidArguments f.name f.mark
        ("expected " ++ toString fn.params.length ++ " arguments, got " ++ toString vs.length)

/-- The value of an expression whose parameters have the values that `env` lists, with calls of
defined functions nested at most `bound` deep. -/
def byValue (σ : Names τ) : Nat → List (String × Value) → Expr τ → Outcome τ Value
  | 0 => byValueWith σ fun _ _ => .unfinished
  | bound + 1 => byValueWith σ (applyToValues σ (byValue σ bound))

/-! ### Evaluation by the form of the expression -/

/-- The calls that `eval` carries out within a bound. -/
def callsWithin (σ : Names τ) : Nat → Ident τ → List (Expr τ) → Outcome τ Value
  | 0 => fun _ _ => .unfinished
  | bound + 1 => applyFunction σ (eval σ bound)

theorem eval_eq (σ : Names τ) (k : Nat) : eval σ k = evalWith σ (callsWithin σ k) := by
  cases k <;> rfl

section

variable (σ : Names τ) (k : Nat)

theorem eval_name (id : Ident τ) : (name id).eval σ k = match σ.value? id.name with
    | some v => .done v
    | none => .raise .undefinedVariable id.name id.mark "" := by
  cases k <;> rfl

theorem eval_number (m : τ) (text : String) : (number m text).eval σ k = (do
    let x ← readNumber m text
    return .scalar x) := by
  cases k <;> rfl

theorem eval_negative (m : τ) (text : String) : (negative m text).eval σ k = (do
    let x ← readNumber m text
    return .scalar (-x)) := by
  cases k <;> rfl

theorem eval_binary (m : τ) (op : String) (l r : Expr τ) : (binary m op l r).eval σ k = (do
    let a ← l.eval σ k
    let b ← r.eval σ k
    applyOperator m op a b) := by
  cases k <;> rfl

theorem eval_list (m : τ) (es : List (Expr τ)) : (list m es).eval σ k = (do
    let vs ← evalAllWith σ (callsWithin σ k) es
    return .list vs) := by
  cases k <;> rfl

theorem evalAllWith_cons (e : Expr τ) (es : List (Expr τ)) :
    evalAllWith σ (callsWithin σ k) (e :: es) = (do
      let v ← e.eval σ k
      let vs ← evalAllWith σ (callsWithin σ k) es
      return v :: vs) := by
  cases k <;> rfl

theorem eval_call {f : Ident τ} (hg : ListCalc.function? f.name = none) (es : List (Expr τ)) :
    (call f es).eval σ k = callsWithin σ k f es := by
  rw [eval_eq, evalWith, hg]

theorem eval_builtin {f : Ident τ} {g : Float → Float} (hg : ListCalc.function? f.name = some g)
    (e : Expr τ) : (call f [e]).eval σ k = (do
      let v ← e.eval σ k
      return v.map g) := by
  rw [eval_eq, evalWith, hg]

end

/-! ### Evaluation with enough steps -/

/-- The expression has the value `v`, given enough steps. -/
def Evaluates (σ : Names τ) (e : Expr τ) (v : Value) : Prop :=
  ∃ n, ∀ k, n ≤ k → e.eval σ k = .done v

theorem evaluates_name {σ : Names τ} {id : Ident τ} {v : Value}
    (h : σ.value? id.name = some v) : Evaluates σ (name id) v := by
  refine ⟨0, fun k _ => ?_⟩
  rw [eval_name, h]

theorem evaluates_number {σ : Names τ} {m : τ} {text : String} {x : Float}
    (h : readNumber m text = .done x) : Evaluates σ (number m text) (.scalar x) := by
  refine ⟨0, fun k _ => ?_⟩
  rw [eval_number, h]
  rfl

theorem evaluates_negative {σ : Names τ} {m : τ} {text : String} {x : Float}
    (h : readNumber m text = .done x) : Evaluates σ (negative m text) (.scalar (-x)) := by
  refine ⟨0, fun k _ => ?_⟩
  rw [eval_negative, h]
  rfl

theorem evaluates_binary {σ : Names τ} {m : τ} {op : String} {l r : Expr τ} {a b v : Value}
    (hl : Evaluates σ l a) (hr : Evaluates σ r b) (h : applyOperator m op a b = .done v) :
    Evaluates σ (binary m op l r) v := by
  obtain ⟨n₁, hl⟩ := hl
  obtain ⟨n₂, hr⟩ := hr
  refine ⟨max n₁ n₂, fun k hk => ?_⟩
  rw [eval_binary, hl k (by omega), hr k (by omega)]
  exact h

/-- Expressions that each have a value have them all at once. -/
theorem exists_evalAllWith {σ : Names τ} {es : List (Expr τ)} {vs : List Value}
    (h : List.Forall₂ (Evaluates σ) es vs) :
    ∃ n, ∀ k, n ≤ k → evalAllWith σ (callsWithin σ k) es = .done vs := by
  induction h with
  | nil => exact ⟨0, fun k _ => rfl⟩
  | cons he _ ih =>
    -- The larger of the two bounds serves both the first expression and the others.
    obtain ⟨n₁, he⟩ := he
    obtain ⟨n₂, ih⟩ := ih
    refine ⟨max n₁ n₂, fun k hk => ?_⟩
    rw [evalAllWith_cons, he k (by omega), ih k (by omega)]
    rfl

theorem evaluates_list {σ : Names τ} {m : τ} {es : List (Expr τ)} {vs : List Value}
    (h : List.Forall₂ (Evaluates σ) es vs) : Evaluates σ (list m es) (.list vs) := by
  obtain ⟨n, hn⟩ := exists_evalAllWith h
  refine ⟨n, fun k hk => ?_⟩
  rw [eval_list, hn k hk]
  rfl

theorem evaluates_builtin {σ : Names τ} {f : Ident τ} {g : Float → Float} {e : Expr τ} {v : Value}
    (hg : ListCalc.function? f.name = some g) (he : Evaluates σ e v) :
    Evaluates σ (call f [e]) (v.map g) := by
  obtain ⟨n, he⟩ := he
  refine ⟨n, fun k hk => ?_⟩
  rw [eval_builtin σ k hg, he k hk]
  rfl

/-- A call has the value of the body with the arguments put in. -/
theorem evaluates_call {σ : Names τ} {f : Ident τ} {fn : Function τ} {es : List (Expr τ)}
    {body : Expr τ} {v : Value} (hg : ListCalc.function? f.name = none)
    (hf : σ.function? f.name = some fn) (hlen : es.length = fn.params.length)
    (hbody : fn.body.substitute σ (fn.params.zip es) = .ok body) (hv : Evaluates σ body v) :
    Evaluates σ (call f es) v := by
  obtain ⟨n, hv⟩ := hv
  -- The call itself takes one level of nesting.
  refine ⟨n + 1, fun k hk => ?_⟩
  obtain ⟨j, rfl⟩ : ∃ j, k = j + 1 := ⟨k - 1, by omega⟩
  rw [eval_call σ _ hg, callsWithin]
  simp only [applyFunction, hf, hlen, if_true, hbody]
  exact hv j (by omega)

/-! ### Substitution instead of an environment -/

/-- The argument expressions `args` stand for the values `env` of the same parameters. -/
def Stands (σ : Names τ) (args : List (String × Expr τ)) (env : List (String × Value)) : Prop :=
  List.Forall₂ (fun a p => a.1 = p.1 ∧ Evaluates σ a.2 p.2) args env

theorem Stands.lookup_none {σ : Names τ} {args : List (String × Expr τ)}
    {env : List (String × Value)} (h : Stands σ args env) {x : String}
    (hx : env.lookup x = none) : args.lookup x = none := by
  induction h with
  | nil => rfl
  | @cons a p args env hap _ ih =>
    obtain ⟨y, e⟩ := a
    obtain ⟨z, v⟩ := p
    obtain ⟨rfl, -⟩ := hap
    by_cases hxy : x = y
    · subst hxy
      exact absurd hx (by simp)
    · rw [List.lookup_cons, beq_false_of_ne hxy] at hx ⊢
      exact ih hx

theorem Stands.lookup_some {σ : Names τ} {args : List (String × Expr τ)}
    {env : List (String × Value)} (h : Stands σ args env) {x : String} {v : Value}
    (hx : env.lookup x = some v) : ∃ e, args.lookup x = some e ∧ Evaluates σ e v := by
  induction h with
  | nil => exact absurd hx (by simp)
  | @cons a p args env hap _ ih =>
    obtain ⟨y, e⟩ := a
    obtain ⟨z, w⟩ := p
    obtain ⟨rfl, he⟩ := hap
    by_cases hxy : x = y
    · subst hxy
      rw [List.lookup_cons_self] at hx
      obtain rfl := Option.some.inj hx
      exact ⟨e, List.lookup_cons_self, he⟩
    · rw [List.lookup_cons, beq_false_of_ne hxy] at hx ⊢
      exact ih hx

/-- The arguments of a call stand for their values under the names of the parameters. -/
theorem stands_zip {σ : Names τ} {es : List (Expr τ)} {vs : List Value}
    (h : List.Forall₂ (Evaluates σ) es vs) (params : List String) :
    Stands σ (params.zip es) (params.zip vs) := by
  induction h generalizing params with
  | nil => simp [Stands]
  | cons he _ ih =>
    cases params with
    | nil => exact .nil
    | cons x params => exact .cons ⟨rfl, he⟩ (ih params)

/-- `apply` gives no value that the call by substitution does not give. -/
def AppliesSoundly (σ : Names τ) (apply : Ident τ → List Value → Outcome τ Value) : Prop :=
  ∀ (f : Ident τ) (es : List (Expr τ)) (vs : List Value) (v : Value),
    ListCalc.function? f.name = none → List.Forall₂ (Evaluates σ) es vs →
      apply f vs = .done v → Evaluates σ (call f es) v

mutual

/-- Where the expression has a value in an environment, substituting the expressions that stand
for the environment succeeds and gives an expression with that value. -/
theorem evaluates_substitute {σ : Names τ} {apply : Ident τ → List Value → Outcome τ Value}
    (happly : AppliesSoundly σ apply) {args : List (String × Expr τ)} {env : List (String × Value)}
    (hargs : Stands σ args env) : (e : Expr τ) → {v : Value} →
      byValueWith σ apply env e = .done v →
        ∃ e', e.substitute σ args = .ok e' ∧ Evaluates σ e' v
  | name id, v, h => by
    rw [byValueWith] at h
    split at h
    · next hx =>
      -- A parameter: what is put in its place has the value it stands for.
      obtain rfl := Outcome.done.inj h
      obtain ⟨e, he, hv⟩ := hargs.lookup_some hx
      exact ⟨e, by rw [substitute, he], hv⟩
    · next hx =>
      -- Any other name is left alone, and has the same value in the scope.
      have hnone := hargs.lookup_none hx
      split at h
      · next hval =>
        obtain rfl := Outcome.done.inj h
        exact ⟨name id, by rw [substitute, hnone, hval], evaluates_name hval⟩
      · cases h
  | number m text, v, h => by
    obtain ⟨x, hx, h⟩ := Outcome.bind_eq_done_iff.mp h
    obtain rfl := Outcome.done.inj h
    exact ⟨number m text, rfl, evaluates_number hx⟩
  | negative m text, v, h => by
    obtain ⟨x, hx, h⟩ := Outcome.bind_eq_done_iff.mp h
    obtain rfl := Outcome.done.inj h
    exact ⟨negative m text, rfl, evaluates_negative hx⟩
  | binary m op l r, v, h => by
    obtain ⟨a, ha, h⟩ := Outcome.bind_eq_done_iff.mp h
    obtain ⟨b, hb, h⟩ := Outcome.bind_eq_done_iff.mp h
    obtain ⟨l', hl, hla⟩ := evaluates_substitute happly hargs l ha
    obtain ⟨r', hr, hrb⟩ := evaluates_substitute happly hargs r hb
    refine ⟨binary m op l' r', ?_, evaluates_binary hla hrb h⟩
    rw [substitute, hl, hr]
    rfl
  | list m es, v, h => by
    obtain ⟨vs, hvs, h⟩ := Outcome.bind_eq_done_iff.mp h
    obtain rfl := Outcome.done.inj h
    obtain ⟨es', hes, hall⟩ := evaluates_substituteAll happly hargs es hvs
    refine ⟨list m es', ?_, evaluates_list hall⟩
    rw [substitute, hes]
    rfl
  | call f es, v, h => by
    rw [byValueWith] at h
    split at h
    · next hg =>
      -- The arguments are substituted first, and then stand for the values of the callee.
      obtain ⟨vs, hvs, h⟩ := Outcome.bind_eq_done_iff.mp h
      obtain ⟨es', hes, hall⟩ := evaluates_substituteAll happly hargs es hvs
      refine ⟨call f es', ?_, happly f es' vs v hg hall h⟩
      rw [substitute, hes]
      rfl
    · next g hg =>
      split at h
      · next a =>
        obtain ⟨w, hw, h⟩ := Outcome.bind_eq_done_iff.mp h
        obtain rfl := Outcome.done.inj h
        obtain ⟨a', ha, haw⟩ := evaluates_substitute happly hargs a hw
        refine ⟨call f [a'], ?_, evaluates_builtin hg haw⟩
        rw [substitute, substituteAll, ha]
        rfl
      · cases h

/-- The same for each of some expressions. -/
theorem evaluates_substituteAll {σ : Names τ} {apply : Ident τ → List Value → Outcome τ Value}
    (happly : AppliesSoundly σ apply) {args : List (String × Expr τ)} {env : List (String × Value)}
    (hargs : Stands σ args env) : (es : List (Expr τ)) → {vs : List Value} →
      byValueAllWith σ apply env es = .done vs →
        ∃ es', substituteAll σ args es = .ok es' ∧ List.Forall₂ (Evaluates σ) es' vs
  | [], vs, h => by
    obtain rfl := Outcome.done.inj h
    exact ⟨[], rfl, .nil⟩
  | e :: es, vs, h => by
    obtain ⟨v, hv, h⟩ := Outcome.bind_eq_done_iff.mp h
    obtain ⟨ws, hws, h⟩ := Outcome.bind_eq_done_iff.mp h
    obtain rfl := Outcome.done.inj h
    obtain ⟨e', he, hev⟩ := evaluates_substitute happly hargs e hv
    obtain ⟨es', hes, hall⟩ := evaluates_substituteAll happly hargs es hws
    refine ⟨e' :: es', ?_, .cons hev hall⟩
    rw [substituteAll, he, hes]
    rfl

end

/-- The reference evaluator gives a call no value that the call by substitution does not give.
The body of the function is evaluated with fewer nested calls, so the bound carries the
induction. -/
theorem byValue_appliesSoundly (σ : Names τ) (bound : Nat) :
    ∃ apply, AppliesSoundly σ apply ∧ byValue σ bound = byValueWith σ apply := by
  induction bound with
  | zero =>
    refine ⟨fun _ _ => .unfinished, ?_, rfl⟩
    intro f es vs v hg hes h
    cases h
  | succ bound ih =>
    refine ⟨applyToValues σ (byValue σ bound), ?_, rfl⟩
    intro f es vs v hg hes h
    -- Inside the body, calls are as deep as the induction hypothesis covers.
    obtain ⟨apply, happly, heq⟩ := ih
    rw [applyToValues] at h
    split at h
    · cases h
    · next fn hf =>
      split at h
      · next hlen =>
        rw [heq] at h
        obtain ⟨body, hbody, hv⟩ := evaluates_substitute happly (stands_zip hes fn.params) fn.body h
        exact evaluates_call hg hf (hes.length_eq.trans hlen) hbody hv
      · cases h

mutual

/-- Substituting for no names changes nothing, unless some name has no value. -/
theorem substitute_nil (σ : Names τ) : (e : Expr τ) →
    e.substitute σ [] = .ok e ∨ ∃ err, e.substitute σ [] = .error err
  | name id => by
    rw [substitute, List.lookup_nil]
    cases σ.value? id.name with
    | none => exact .inr ⟨_, rfl⟩
    | some v => exact .inl rfl
  | number m text => .inl rfl
  | negative m text => .inl rfl
  | binary m op l r => by
    rw [substitute]
    rcases substitute_nil σ l with hl | ⟨err, hl⟩
    · rcases substitute_nil σ r with hr | ⟨err, hr⟩
      · exact .inl (by rw [hl, hr]; rfl)
      · exact .inr ⟨err, by rw [hl, hr]; rfl⟩
    · exact .inr ⟨err, by rw [hl]; rfl⟩
  | list m es => by
    rw [substitute]
    rcases substituteAll_nil σ es with hes | ⟨err, hes⟩
    · exact .inl (by rw [hes]; rfl)
    · exact .inr ⟨err, by rw [hes]; rfl⟩
  | call f es => by
    rw [substitute]
    rcases substituteAll_nil σ es with hes | ⟨err, hes⟩
    · exact .inl (by rw [hes]; rfl)
    · exact .inr ⟨err, by rw [hes]; rfl⟩

/-- The same for each of some expressions. -/
theorem substituteAll_nil (σ : Names τ) : (es : List (Expr τ)) →
    substituteAll σ [] es = .ok es ∨ ∃ err, substituteAll σ [] es = .error err
  | [] => .inl rfl
  | e :: es => by
    rw [substituteAll]
    rcases substitute_nil σ e with he | ⟨err, he⟩
    · rcases substituteAll_nil σ es with hes | ⟨err, hes⟩
      · exact .inl (by rw [he, hes]; rfl)
      · exact .inr ⟨err, by rw [he, hes]; rfl⟩
    · exact .inr ⟨err, by rw [he]; rfl⟩

end

/-- **Substitution agrees with call by value.**  In every scope, an expression that has a value
when arguments are computed once and bound to parameters has the same value when they are put
into the body unevaluated. -/
theorem eval_of_byValue (σ : Names τ) (e : Expr τ) (v : Value)
    (h : ∃ n, e.byValue σ n [] = .done v) : ∃ n, ∀ k, n ≤ k → e.eval σ k = .done v := by
  obtain ⟨n, h⟩ := h
  obtain ⟨apply, happly, heq⟩ := byValue_appliesSoundly σ n
  rw [heq] at h
  -- Outside of all functions there are no parameters, and nothing is substituted.
  obtain ⟨e', he', hv⟩ := evaluates_substitute happly (show Stands σ [] [] from .nil) e h
  rcases substitute_nil σ e with he | ⟨err, he⟩
  · rw [he] at he'
    obtain rfl := Except.ok.inj he'
    exact hv
  · rw [he] at he'
    cases he'

/-- A function `pair(x, y) = [y, x]` and a function `twist(y) = pair(y, [y])`, whose parameter has
the name of one of the first. -/
def twistNames : Names Unit :=
  ⟨[("pair", .function ⟨"pair", ["x", "y"], list () [name ⟨(), "y"⟩, name ⟨(), "x"⟩]⟩),
    ("twist", .function ⟨"twist", ["y"],
      call ⟨(), "pair"⟩ [name ⟨(), "y"⟩, list () [name ⟨(), "y"⟩]]⟩)], []⟩

theorem eval_of_byValue_twist :
    (byValue twistNames 2 [] (call ⟨(), "twist"⟩ [list () []])
      = .done (.list [.list [.list []], .list []])) ∧
    ∃ n, ∀ k, n ≤ k → eval twistNames k (call ⟨(), "twist"⟩ [list () []])
      = .done (.list [.list [.list []], .list []]) :=
  ⟨by rfl, eval_of_byValue _ _ _ ⟨2, by rfl⟩⟩

end Expr

end ListCalc
