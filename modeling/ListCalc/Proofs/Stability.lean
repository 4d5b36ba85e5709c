/-
Values last.

An expression is computed from the meanings of names: of those it mentions, and of
those in the bodies of the functions it calls, which are looked up when the call is
made.  More names change nothing, since a name that had a meaning keeps it
(`Scope.KeptBy`), and an expression that has a value has met no name without one.

* `Expr.substitute_of_keptBy` — substitution succeeds in a larger scope, with the same
  expression;
* `Expr.eval_of_keptBy` — evaluation has the same value there, within any larger bound;
* `Session.keptBy_performAll` — calls that do not close a session keep the meanings of
  its names, since loop variables are assigned to in frames of their own;
* `Session.evaluate_lasts` — so the expressions of a session keep their values.
-/
import ListCalc.Proofs.CallByValue
import ListCalc.Proofs.Session

namespace ListCalc

variable {τ : Type}

/-! ### Larger scopes -/

namespace Names

variable {σ σ' : Names τ}

theorem value?_of_keptBy (h : σ.KeptBy σ') {x : String} {v : Value} (hv : σ.value? x = some v) :
    σ'.value? x = some v := by
  rw [value?] at hv ⊢
  -- A constant has its value in every scope.
  split
  · next c hc =>
    rw [hc] at hv
    exact hv
  · next hc =>
    simp only [hc] at hv
    split at hv
    · next w hw =>
      rw [h x _ hw]
      exact hv
    · cases hv

theorem function?_of_keptBy (h : σ.KeptBy σ') {f : String} {fn : Function τ}
    (hf : σ.function? f = some fn) : σ'.function? f = some fn := by
  rw [function?] at hf ⊢
  split at hf
  · next fn' hfn =>
    rw [h f _ hfn]
    exact hf
  · cases hf

end Names

namespace Expr

variable {σ σ' : Names τ}

theorem bind_eq_ok_iff {α β : Type} {x : Except (RuntimeError τ) α}
    {f : α → Except (RuntimeError τ) β} {b : β} :
    (x >>= f) = .ok b ↔ ∃ a, x = .ok a ∧ f a = .ok b := by
  cases x with
  | error e =>
    constructor
    · intro h
      cases h
    · rintro ⟨a, ha, -⟩
      cases ha
  | ok a =>
    constructor
    · intro h
      exact ⟨a, rfl, h⟩
    · rintro ⟨a', ha, h⟩
      obtain rfl := Except.ok.inj ha
      exact h

mutual

/-- Where a substitution succeeds, it gives the same expression in a larger scope. -/
theorem substitute_of_keptBy (h : σ.KeptBy σ') (args : List (String × Expr τ)) :
    (e : Expr τ) → {e' : Expr τ} → e.substitute σ args = .ok e' →
      e.substitute σ' args = .ok e'
  | name id, e', he => by
    rw [substitute] at he ⊢
    split
    · next arg harg =>
      rw [harg] at he
      exact he
    · next harg =>
      simp only [harg] at he
      split at he
      · next v hv =>
        rw [Names.value?_of_keptBy h hv]
        exact he
      · cases he
  | number _ _, _, he => he
  | negative _ _, _, he => he
  | binary m op l r, e', he => by
    obtain ⟨l', hl, he⟩ := bind_eq_ok_iff.mp he
    obtain ⟨r', hr, he⟩ := bind_eq_ok_iff.mp he
    rw [substitute, substitute_of_keptBy h args l hl, substitute_of_keptBy h args r hr]
    exact he
  | call f es, e', he => by
    obtain ⟨es', hes, he⟩ := bind_eq_ok_iff.mp he
    rw [substitute, substituteAll_of_keptBy h args es hes]
    exact he
  | list m es, e', he => by
    obtain ⟨es', hes, he⟩ := bind_eq_ok_iff.mp he
    rw [substitute, substituteAll_of_keptBy h args es hes]
    exact he

/-- The same for each of some expressions. -/
theorem substituteAll_of_keptBy (h : σ.KeptBy σ') (args : List (String × Expr τ)) :
    (es : List (Expr τ)) → {es' : List (Expr τ)} → substituteAll σ args es = .ok es' →
      substituteAll σ' args es = .ok es'
  | [], _, hes => hes
  | e :: es, es', hes => by
    obtain ⟨e', he, hes⟩ := bind_eq_ok_iff.mp hes
    obtain ⟨rest, hrest, hes⟩ := bind_eq_ok_iff.mp hes
    rw [substituteAll, substitute_of_keptBy h args e he, substituteAll_of_keptBy h args es hrest]
    exact hes

end

section

variable {apply apply' : Ident τ → List (Expr τ) → Outcome τ Value}

mutual

/-- A value is the same in a larger scope, if the calls that have values there have the same
ones. -/
theorem evalWith_of_keptBy (h : σ.KeptBy σ')
    (happly : ∀ f es v, apply f es = .done v → apply' f es = .done v) :
    (e : Expr τ) → {v : Value} → evalWith σ apply e = .done v → evalWith σ' apply' e = .done v
  | name id, v, he => by
    rw [evalWith] at he ⊢
    split at he
    · next w hw =>
      rw [Names.value?_of_keptBy h hw]
      exact he
    · cases he
  | number _ _, _, he => he
  | negative _ _, _, he => he
  | binary m op l r, v, he => by
    obtain ⟨a, ha, he⟩ := Outcome.bind_eq_done_iff.mp he
    obtain ⟨b, hb, he⟩ := Outcome.bind_eq_done_iff.mp he
    rw [evalWith, evalWith_of_keptBy h happly l ha, evalWith_of_keptBy h happly r hb]
    exact he
  | list m es, v, he => by
    obtain ⟨vs, hvs, he⟩ := Outcome.bind_eq_done_iff.mp he
    rw [evalWith, evalAllWith_of_keptBy h happly es hvs]
    exact he
  | call f es, v, he => by
    rw [evalWith] at he ⊢
    split
    · next hg =>
      rw [hg] at he
      exact happly f es v he
    · next g hg =>
      rw [hg] at he
      -- A built-in function takes one argument.
      match es, he with
      | [a], he =>
        obtain ⟨w, hw, he⟩ := Outcome.bind_eq_done_iff.mp he
        show (do let v ← evalWith σ' apply' a; return v.map g) = _
        rw [evalWith_of_keptBy h happly a hw]
        exact he
      | [], he => cases he
      | _ :: _ :: _, he => cases he

/-- The same for each of some expressions. -/
theorem evalAllWith_of_keptBy (h : σ.KeptBy σ')
    (happly : ∀ f es v, apply f es = .done v → apply' f es = .done v) :
    (es : List (Expr τ)) → {vs : List Value} → evalAllWith σ apply es = .done vs →
      evalAllWith σ' apply' es = .done vs
  | [], _, hes => hes
  | e :: es, vs, hes => by
    obtain ⟨v, hv, hes⟩ := Outcome.bind_eq_done_iff.mp hes
    obtain ⟨rest, hrest, hes⟩ := Outcome.bind_eq_done_iff.mp hes
    rw [evalAllWith, evalWith_of_keptBy h happly e hv, evalAllWith_of_keptBy h happly es hrest]
    exact hes

end

end

/-- A call has the same value in a larger scope, if the bodies that have values there have the
same ones. -/
theorem applyFunction_of_keptBy (h : σ.KeptBy σ') {evalBody evalBody' : Expr τ → Outcome τ Value}
    (hbody : ∀ e v, evalBody e = .done v → evalBody' e = .done v) {f : Ident τ}
    {es : List (Expr τ)} {v : Value} (hv : applyFunction σ evalBody f es = .done v) :
    applyFunction σ' evalBody' f es = .done v := by
  rw [applyFunction] at hv ⊢
  split at hv
  · cases hv
  · next fn hfn =>
    rw [Names.function?_of_keptBy h hfn]
    split at hv
    · next hlen =>
      split at hv
      · next body hsub =>
        simp only [if_pos hlen, substitute_of_keptBy h _ _ hsub]
        exact hbody body v hv
      · cases hv
    · cases hv

/-- **Values are the same in larger scopes** and within larger bounds. -/
theorem eval_of_keptBy (h : σ.KeptBy σ') {bound k : Nat} (hk : bound ≤ k) {e : Expr τ} {v : Value}
    (hv : e.eval σ bound = .done v) : e.eval σ' k = .done v := by
  -- Bodies are evaluated within the bound below, for the smaller scope and for the larger one.
  induction bound generalizing k e v with
  | zero =>
    rw [eval_eq] at hv ⊢
    refine evalWith_of_keptBy h ?_ e hv
    intro f es w hw
    cases hw
  | succ bound ih =>
    obtain ⟨j, rfl⟩ : ∃ j, k = j + 1 := ⟨k - 1, by omega⟩
    refine evalWith_of_keptBy h ?_ e hv
    intro f es w hw
    exact applyFunction_of_keptBy h (fun body u hu => ih (by omega) hu) hw

end Expr

/-! ### Sessions -/

namespace Session

/-- The session after some calls. -/
def performAll (s : Session τ) (calls : List (Call τ)) : Session τ :=
  calls.foldl (fun s c => (s.perform c).2) s

/-- A call that does not close the session keeps the meanings of its names. -/
theorem keptBy_perform (s : Session τ) {c : Call τ} (hc : c ≠ .close) :
    s.machine.names.KeptBy (s.perform c).2.machine.names := by
  cases c with
  | interpret bound p =>
    have hnames : (s.interpret bound p).2.machine.names = s.machine.names :=
      Action.restores_inFrame (Stmt.grows_runAll bound p) .program s.machine
    show s.machine.names.KeptBy (s.interpret bound p).2.machine.names
    rw [hnames]
    exact Scope.keptBy_refl _
  | execute bound p =>
    intro name b hb
    rw [← get?_opened] at hb
    exact (Stmt.grows_runAll bound p s.opened.machine).keptBy name b hb
  | evaluate bound e => exact Scope.keptBy_refl _
  | close => exact absurd rfl hc

theorem keptBy_performAll (s : Session τ) {calls : List (Call τ)} (hcalls : Call.close ∉ calls) :
    s.machine.names.KeptBy (s.performAll calls).machine.names := by
  induction calls generalizing s with
  | nil => exact Scope.keptBy_refl _
  | cons c calls ih =>
    have hc : c ≠ .close := (List.ne_of_not_mem_cons hcalls).symm
    exact (s.keptBy_perform hc).trans (ih (s.perform c).2 (List.not_mem_of_not_mem_cons hcalls))

/-- **The values of expressions last.**  An expression that has a value in a scope has it in every
scope in which the same names mean the same, whatever other names there are, and within every
larger bound.  So an expression that has a value in a session has it after all programs that are
run there, however these end, as long as the session is not closed. -/
theorem evaluate_lasts :
    (∀ (σ σ' : Names τ) (e : Expr τ) (bound : Nat) (v : Value), σ.KeptBy σ' →
      e.eval σ bound = .done v → ∀ k, bound ≤ k → e.eval σ' k = .done v) ∧
    (∀ (s : Session τ) (e : Expr τ) (bound : Nat) (v : Value), s.evaluate bound e = .done v →
      ∀ calls : List (Call τ), Call.close ∉ calls →
        ∀ k, bound ≤ k → (s.performAll calls).evaluate k e = .done v) := by
  constructor
  · intro σ σ' e bound v hkept hv k hk
    exact Expr.eval_of_keptBy hkept hk hv
  · intro s e bound v hv calls hcalls k hk
    exact Expr.eval_of_keptBy (s.keptBy_performAll hcalls) hk hv

/-- A function whose body has a name that is not a parameter.  Later programs declare the name of
its parameter, try to declare the other one again, and have both as loop variables. -/
theorem evaluate_lasts_loop :
    let name (x : String) : Ident Unit := ⟨(), x⟩
    let empty : Expr Unit := .list () []
    let s := ((start (.fresh none)).perform (.execute 1 [.declare () (name "a") empty,
      .define (name "f") [name "x"] (.list () [.name (name "x"), .name (name "a")])])).2
    let e : Expr Unit := .call (name "f") [.list () [.name (name "a")]]
    let calls : List (Call Unit) :=
      [.execute 1 [.each () (name "x") (.list () [empty, empty])
          [.declare () (name "b") (.name (name "x")), .print () (.name (name "b"))],
        .declare () (name "x") (.list () [empty])],
      .execute 1 [.declare () (name "a") (.name (name "x"))],
      .interpret 1 [.each () (name "a") (.list () [empty]) [], .declare () (name "c") empty]]
    let v : Value := .list [.list [.list []], .list []]
    (s.isDefined "x" = false ∧ (s.performAll calls).isDefined "x" = true) ∧
      s.evaluate 1 e = .done v ∧ ∀ k, 1 ≤ k → (s.performAll calls).evaluate k e = .done v := by
  intro name empty s e calls v
  have hv : s.evaluate 1 e = .done v := by rfl
  refine ⟨by decide +kernel, hv, ?_⟩
  exact evaluate_lasts.2 s e 1 v hv calls (by simp [calls])

end Session

end ListCalc
