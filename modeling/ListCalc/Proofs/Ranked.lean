/-
Evaluation ends where functions do not recur.

A call is evaluated by putting its arguments, unevaluated, into the body of the
function, so the expression at hand may grow, and it may hold further calls of the
same function.  Neither its size nor the functions in it get smaller.  What helps is
that the two kinds of calls in such a body come from different places: those of the
body itself are of functions below it, and those of the arguments were there before.

* `Outcome.Settles` — a computation that is the same within all bounds from some on,
  and is not unfinished;
* `Expr.SettlesCalls` — the calls of a function settle if their arguments do;
* `Expr.settles_substitute` — putting expressions that settle into an expression whose
  functions settle their calls gives one that settles;
* `Expr.settlesCalls_of_ranked` — so functions settle their calls, by induction on
  their rank;
* `Expr.eval_ends_of_ranked` — hence every expression settles.
-/
import ListCalc.Proofs.Faults
import ListCalc.Proofs.Stability

namespace ListCalc

variable {τ α β : Type}

/-! ### Computations that settle -/

namespace Outcome

/-- From some bound on, the computation always ends in the same way. -/
def Settles (x : Nat → Outcome τ α) : Prop :=
  ∃ o, o ≠ .unfinished ∧ ∃ n, ∀ k, n ≤ k → x k = o

theorem settles_const {o : Outcome τ α} (h : o ≠ .unfinished) : Settles fun _ => o :=
  ⟨o, h, 0, fun _ _ => rfl⟩

theorem settles_done (a : α) : Settles fun _ => (.done a : Outcome τ α) :=
  settles_const fun h => by cases h

theorem settles_raise (kind : RuntimeError.Kind) (name : String) (mark : τ) (detail : String) :
    Settles fun _ => (raise kind name mark detail : Outcome τ α) :=
  settles_const fun h => by cases h

theorem settles_bind {x : Nat → Outcome τ α} {f : Nat → α → Outcome τ β} (hx : Settles x)
    (hf : ∀ a, Settles fun k => f k a) : Settles fun k => x k >>= f k := by
  obtain ⟨o, ho, n, hn⟩ := hx
  cases o with
  | done a =>
    obtain ⟨o', ho', n', hn'⟩ := hf a
    refine ⟨o', ho', max n n', ?_⟩
    intro k hk
    show (x k >>= f k) = o'
    rw [hn k (by omega), ← hn' k (by omega)]
    rfl
  | failed e =>
    have ho' : (.failed e : Outcome τ β) ≠ .unfinished := fun h => by cases h
    refine ⟨.failed e, ho', n, ?_⟩
    intro k hk
    show (x k >>= f k) = _
    rw [hn k hk]
    rfl
  | unfinished => exact absurd rfl ho

/-- A computation settles if it does so one step later. -/
theorem settles_of_succ {x y : Nat → Outcome τ α} (h : ∀ k, x (k + 1) = y k) (hy : Settles y) :
    Settles x := by
  obtain ⟨o, ho, n, hn⟩ := hy
  refine ⟨o, ho, n + 1, ?_⟩
  intro k hk
  obtain ⟨j, rfl⟩ : ∃ j, k = j + 1 := ⟨k - 1, by omega⟩
  rw [h j, hn j (by omega)]

end Outcome

theorem settles_applyOperator (mark : τ) (op : String) (l r : Value) :
    Outcome.Settles fun _ => applyOperator mark op l r := by
  refine Outcome.settles_const ?_
  rw [applyOperator]
  split
  · rintro ⟨⟩
  · split
    · rintro ⟨⟩
    · rintro ⟨⟩

theorem settles_readNumber (mark : τ) (text : String) :
    Outcome.Settles fun _ => readNumber mark text := by
  refine Outcome.settles_const ?_
  rw [readNumber]
  split
  · rintro ⟨⟩
  · rintro ⟨⟩

namespace Expr

/-! ### Expressions that settle -/

/-- Evaluation ends in the same way within all bounds from some on. -/
def Settles (σ : Names τ) (e : Expr τ) : Prop := Outcome.Settles fun k => e.eval σ k

variable {σ : Names τ}

theorem settles_name (id : Ident τ) : (name id).Settles σ := by
  simp only [Settles, eval_name]
  cases σ.value? id.name with
  | some v => exact Outcome.settles_done v
  | none => exact Outcome.settles_raise _ _ _ _

theorem settles_number (m : τ) (text : String) : (number m text).Settles σ := by
  simp only [Settles, eval_number]
  exact Outcome.settles_bind (settles_readNumber m text) fun x => Outcome.settles_done _

theorem settles_negative (m : τ) (text : String) : (negative m text).Settles σ := by
  simp only [Settles, eval_negative]
  exact Outcome.settles_bind (settles_readNumber m text) fun x => Outcome.settles_done _

theorem settles_binary {m : τ} {op : String} {l r : Expr τ} (hl : l.Settles σ)
    (hr : r.Settles σ) : (binary m op l r).Settles σ := by
  simp only [Settles, eval_binary]
  refine Outcome.settles_bind hl fun a => ?_
  exact Outcome.settles_bind hr fun b => settles_applyOperator m op a b

theorem settles_evalAllWith {es : List (Expr τ)} (hes : ∀ e ∈ es, e.Settles σ) :
    Outcome.Settles fun k => evalAllWith σ (callsWithin σ k) es := by
  induction es with
  | nil => exact Outcome.settles_done []
  | cons e es ih =>
    obtain ⟨he, hrest⟩ := List.forall_mem_cons.mp hes
    simp only [evalAllWith_cons]
    refine Outcome.settles_bind he fun v => ?_
    exact Outcome.settles_bind (ih hrest) fun vs => Outcome.settles_done _

theorem settles_list {m : τ} {es : List (Expr τ)} (hes : ∀ e ∈ es, e.Settles σ) :
    (list m es).Settles σ := by
  simp only [Settles, eval_list]
  exact Outcome.settles_bind (settles_evalAllWith hes) fun vs => Outcome.settles_done _

/-! ### Functions whose calls settle -/

mutual

/-- The names of the functions that are called in an expression. -/
def callees : Expr τ → List String
  | name _ => []
  | number _ _ => []
  | negative _ _ => []
  | binary _ _ l r => l.callees ++ r.callees
  | call f es => f.name :: calleesAll es
  | list _ es => calleesAll es

/-- The names of the functions that are called in some expressions. -/
def calleesAll : List (Expr τ) → List String
  | [] => []
  | e :: es => e.callees ++ calleesAll es

end

/-- A call of the function settles if its arguments do. -/
def SettlesCalls (σ : Names τ) (f : String) : Prop :=
  ∀ (mark : τ) (es : List (Expr τ)), (∀ e ∈ es, e.Settles σ) → (call ⟨mark, f⟩ es).Settles σ

mutual

/-- Expressions that settle are put into an expression, and the functions that this one calls
settle their calls.  Then the result settles. -/
theorem settles_substitute {args : List (String × Expr τ)}
    (hargs : ∀ x arg, args.lookup x = some arg → arg.Settles σ) :
    (e : Expr τ) → {e' : Expr τ} → (∀ f ∈ e.callees, SettlesCalls σ f) →
      e.substitute σ args = .ok e' → e'.Settles σ
  | name id, e', _, h => by
    rw [substitute] at h
    split at h
    · next arg harg =>
      obtain rfl := Except.ok.inj h
      exact hargs id.name arg harg
    · split at h
      · obtain rfl := Except.ok.inj h
        exact settles_name id
      · cases h
  | number m text, e', _, h => by
    obtain rfl := Except.ok.inj h
    exact settles_number m text
  | negative m text, e', _, h => by
    obtain rfl := Except.ok.inj h
    exact settles_negative m text
  | binary m op l r, e', hcalls, h => by
    obtain ⟨hcl, hcr⟩ := List.forall_mem_append.mp hcalls
    obtain ⟨l', hl, h⟩ := bind_eq_ok_iff.mp h
    obtain ⟨r', hr, h⟩ := bind_eq_ok_iff.mp h
    obtain rfl := Except.ok.inj h
    exact settles_binary (settles_substitute hargs l hcl hl) (settles_substitute hargs r hcr hr)
  | call f es, e', hcalls, h => by
    obtain ⟨hcf, hces⟩ := List.forall_mem_cons.mp hcalls
    obtain ⟨es', hes, h⟩ := bind_eq_ok_iff.mp h
    obtain rfl := Except.ok.inj h
    exact hcf f.mark es' (settles_substituteAll hargs es hces hes)
  | list m es, e', hcalls, h => by
    obtain ⟨es', hes, h⟩ := bind_eq_ok_iff.mp h
    obtain rfl := Except.ok.inj h
    exact settles_list (settles_substituteAll hargs es hcalls hes)

/-- The same for each of some expressions. -/
theorem settles_substituteAll {args : List (String × Expr τ)}
    (hargs : ∀ x arg, args.lookup x = some arg → arg.Settles σ) :
    (es : List (Expr τ)) → {es' : List (Expr τ)} → (∀ f ∈ calleesAll es, SettlesCalls σ f) →
      substituteAll σ args es = .ok es' → ∀ e ∈ es', e.Settles σ
  | [], es', _, h => by
    obtain rfl := Except.ok.inj h
    exact fun e he => absurd he List.not_mem_nil
  | e :: es, es', hcalls, h => by
    obtain ⟨hce, hces⟩ := List.forall_mem_append.mp hcalls
    obtain ⟨e', he, h⟩ := bind_eq_ok_iff.mp h
    obtain ⟨rest, hrest, h⟩ := bind_eq_ok_iff.mp h
    obtain rfl := Except.ok.inj h
    exact List.forall_mem_cons.mpr
      ⟨settles_substitute hargs e hce he, settles_substituteAll hargs es hces hrest⟩

end

/-- A built-in function computes its argument, or complains about how many there are. -/
theorem settlesCalls_of_builtin {f : String} {g : Float → Float}
    (hg : ListCalc.function? f = some g) : SettlesCalls σ f := by
  intro mark es hes
  match es with
  | [a] =>
    have ha : a.Settles σ := hes a List.mem_cons_self
    have heval : ∀ k, (call ⟨mark, f⟩ [a]).eval σ k = (do let v ← a.eval σ k; return v.map g) :=
      fun k => eval_builtin σ k hg a
    simp only [Settles, heval]
    exact Outcome.settles_bind ha fun v => Outcome.settles_done _
  | [] =>
    have heval : ∀ k, (call ⟨mark, f⟩ []).eval σ k
        = .raise .invalidArguments f mark ("expected 1 argument, got " ++ toString 0) := by
      intro k
      rw [eval_eq, evalWith, hg]
      rfl
    simp only [Settles, heval]
    exact Outcome.settles_raise _ _ _ _
  | a :: b :: rest =>
    have heval : ∀ k, (call ⟨mark, f⟩ (a :: b :: rest)).eval σ k = .raise .invalidArguments f mark
        ("expected 1 argument, got " ++ toString (a :: b :: rest).length) := by
      intro k
      rw [eval_eq, evalWith, hg]
    simp only [Settles, heval]
    exact Outcome.settles_raise _ _ _ _

/-- A function settles its calls if the functions that its body calls do.  A name that is not
bound to a function has no calls that do anything. -/
theorem settlesCalls_of_body {f : String} (hg : ListCalc.function? f = none)
    (hbody : ∀ fn, σ.function? f = some fn → ∀ g ∈ fn.body.callees, SettlesCalls σ g) :
    SettlesCalls σ f := by
  intro mark es hes
  have hcall : ∀ k, (call ⟨mark, f⟩ es).eval σ (k + 1)
      = applyFunction σ (eval σ k) ⟨mark, f⟩ es := fun k => eval_call σ (k + 1) hg es
  refine Outcome.settles_of_succ hcall ?_
  simp only [applyFunction]
  split
  · exact Outcome.settles_raise _ _ _ _
  · next fn hfn =>
    split
    · split
      · next body hsub =>
        refine settles_substitute ?_ fn.body (hbody fn hfn) hsub
        -- What is put in is one of the arguments.
        intro x arg harg
        exact hes arg (List.of_mem_zip (mem_of_lookup harg)).2
      · exact Outcome.settles_const fun h => by cases h
    · exact Outcome.settles_raise _ _ _ _

end Expr

/-! ### Ranks -/

/-- Every function that the program defines calls only such functions in its body that have a
smaller rank. -/
def Names.RankedBy (σ : Names τ) (rank : String → Nat) : Prop :=
  ∀ f fn, σ.function? f = some fn → ∀ g ∈ fn.body.callees,
    ListCalc.function? g = none → (σ.function? g).isSome = true → rank g < rank f

namespace Expr

variable {σ : Names τ}

theorem settlesCalls_of_ranked {rank : String → Nat} (hrank : σ.RankedBy rank) (f : String) :
    SettlesCalls σ f := by
  -- The induction is on the rank, and not on what is called: arguments settle by assumption.
  induction hn : rank f using Nat.strongRecOn generalizing f with
  | ind n ih =>
    cases hg : ListCalc.function? f with
    | some g => exact settlesCalls_of_builtin hg
    | none =>
      refine settlesCalls_of_body hg ?_
      intro fn hfn h hh
      cases hbuiltin : ListCalc.function? h with
      | some g => exact settlesCalls_of_builtin hbuiltin
      | none =>
        cases hdefined : σ.function? h with
        | none =>
          refine settlesCalls_of_body hbuiltin ?_
          intro fn' hfn'
          rw [hdefined] at hfn'
          cases hfn'
        | some fn' =>
          have hlt := hrank f fn hfn h hh hbuiltin (by rw [hdefined]; rfl)
          exact ih (rank h) (hn ▸ hlt) h rfl

mutual

/-- If functions settle their calls, all expressions settle. -/
theorem settles_of_settlesCalls (hcalls : ∀ f, SettlesCalls σ f) : (e : Expr τ) → e.Settles σ
  | name id => settles_name id
  | number m text => settles_number m text
  | negative m text => settles_negative m text
  | binary _ _ l r =>
    settles_binary (settles_of_settlesCalls hcalls l) (settles_of_settlesCalls hcalls r)
  | call f es => hcalls f.name f.mark es (settles_all_of_settlesCalls hcalls es)
  | list _ es => settles_list (settles_all_of_settlesCalls hcalls es)

/-- The same for each of some expressions. -/
theorem settles_all_of_settlesCalls (hcalls : ∀ f, SettlesCalls σ f) :
    (es : List (Expr τ)) → ∀ e ∈ es, e.Settles σ
  | [] => fun _ he => absurd he List.not_mem_nil
  | e :: es => List.forall_mem_cons.mpr
      ⟨settles_of_settlesCalls hcalls e, settles_all_of_settlesCalls hcalls es⟩

end

/-- **Evaluation ends where functions do not recur.**  If the functions of a scope have ranks, and
each calls only functions of smaller rank in its body, then every expression has an outcome there,
a value or a failure, which is the same within all bounds from some on. -/
theorem eval_ends_of_ranked (σ : Names τ) (rank : String → Nat) (hrank : σ.RankedBy rank)
    (e : Expr τ) : ∃ o : Outcome τ Value, o ≠ .unfinished ∧ ∃ n, ∀ k, n ≤ k → e.eval σ k = o :=
  settles_of_settlesCalls (settlesCalls_of_ranked hrank) e

/-- Functions `pair(x) = [x, x]` and `quad(x) = pair(pair(x))`: the calls in the expression are
nested in each other, and the body of `quad` calls one function twice. -/
def quadNames : Names Unit :=
  ⟨[("pair", .function ⟨"pair", ["x"], list () [name ⟨(), "x"⟩, name ⟨(), "x"⟩]⟩),
    ("quad", .function ⟨"quad", ["x"],
      call ⟨(), "pair"⟩ [call ⟨(), "pair"⟩ [name ⟨(), "x"⟩]]⟩)], []⟩

theorem eval_ends_of_ranked_quad :
    quadNames.RankedBy (fun f => if f = "quad" then 1 else 0) ∧
    let e : Expr Unit :=
      call ⟨(), "quad"⟩ [call ⟨(), "pair"⟩ [call ⟨(), "quad"⟩ [call ⟨(), "quad"⟩ [list () []]]]]
    ∃ o : Outcome Unit Value, o ≠ .unfinished ∧ ∃ n, ∀ k, n ≤ k → e.eval quadNames k = o := by
  have hrank : quadNames.RankedBy (fun f => if f = "quad" then 1 else 0) := by
    intro f fn hfn g hg hbuiltin hdefined
    rw [Names.function?] at hfn
    split at hfn
    · next fn' hget =>
      obtain rfl := Option.some.inj hfn
      rcases List.mem_cons.mp (mem_of_lookup hget) with hpair | hquad
      · -- The body of the first function calls none.
        obtain ⟨rfl, hfn'⟩ := Prod.mk.inj hpair
        obtain rfl := Binding.function.inj hfn'
        simp [callees, calleesAll] at hg
      · obtain ⟨rfl, hfn'⟩ := Prod.mk.inj (List.mem_singleton.mp hquad)
        obtain rfl := Binding.function.inj hfn'
        obtain rfl : g = "pair" := by simpa [callees, calleesAll] using hg
        decide
    · cases hfn
  exact ⟨hrank, eval_ends_of_ranked quadNames _ hrank _⟩

end Expr

end ListCalc
