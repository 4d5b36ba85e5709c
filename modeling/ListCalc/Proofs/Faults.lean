/-
Legible programs fail fairly.

A fault is a use of the scope or of an operator that makes no sense: a frame is
closed or a name is bound and no frame is open, a free name is given another
meaning, or an operator is unknown.  What keeps a run from all of these is that
its expressions are legible, those in the bodies of functions included
(`Names.Legible`), and that names are bound inside frames (`Names.Sound`).  For the
same reason a number that cannot be read is one in canonical form.

* `Failure.Fair` — no fault, and no number that is not in canonical form;
* `fair_eval` — evaluation meets known operators and numbers in canonical form only,
  since substitution keeps expressions legible;
* `fair_run` — a statement binds its names in an open frame, and a loop finds its
  variable bound in every turn;
* `Session.fair_perform` — so calls of a session fail fairly, and none causes a fault
  (`Session.faultless_perform`).
-/
import ListCalc.Proofs.Session
import ListCalc.Proofs.Spelling

namespace ListCalc

variable {τ α β : Type}

/-! ### Outcomes -/

/-- The outcome is no fault. -/
def Outcome.Faultless (o : Outcome τ α) : Prop := ∀ f, o ≠ .failed (.fault f)

/-- How a legible program can fail: not with a fault, and over a number only if it is one in
canonical form that cannot be read. -/
def Failure.Fair : Failure τ → Prop
  | runtime _ => True
  | literal _ detail => ∃ text, IsNumeral text ∧ Number.read? text = none ∧
      detail = "invalid float literal " ++ Text.quote text
  | write _ _ => True
  | fault _ => False

/-- If the outcome is a failure, it is a fair one. -/
def Outcome.Fair (o : Outcome τ α) : Prop := ∀ e, o = .failed e → e.Fair

namespace Outcome

theorem Fair.faultless {o : Outcome τ α} (h : o.Fair) : o.Faultless :=
  fun _ ho => h _ ho

theorem fair_done (a : α) : (Outcome.done a : Outcome τ α).Fair := by
  intro e h
  cases h

theorem fair_unfinished : (Outcome.unfinished : Outcome τ α).Fair := by
  intro e h
  cases h

theorem fair_failed {e : Failure τ} (he : e.Fair) : (Outcome.failed e : Outcome τ α).Fair := by
  intro e' h
  cases h
  exact he

theorem fair_raise (kind : RuntimeError.Kind) (name : String) (mark : τ) (detail : String) :
    (Outcome.raise kind name mark detail : Outcome τ α).Fair :=
  fair_failed trivial

theorem Fair.bind {x : Outcome τ α} {f : α → Outcome τ β} (hx : x.Fair)
    (hf : ∀ a, (f a).Fair) : (x >>= f).Fair := by
  cases x with
  | done a => exact hf a
  | failed e => exact fair_failed (hx e rfl)
  | unfinished => exact fair_unfinished

end Outcome

/-! ### Expressions -/

/-- A text that stands for an operator names one. -/
theorem exists_operator_of_isOperator {op : String} (h : IsOperator op) :
    ∃ o, Operator.ofText? op = some o := by
  obtain ⟨c, k, p, rfl, hk, hp⟩ := h
  unfold Kind.ofSymbol? at hk
  -- The five operators name themselves, and the other symbols have no precedence.
  split at hk <;> cases hk
  all_goals first
    | exact ⟨_, rfl⟩
    | cases hp

theorem fair_applyOperator (mark : τ) {op : String} (h : IsOperator op) (l r : Value) :
    (applyOperator mark op l r).Fair := by
  obtain ⟨o, ho⟩ := exists_operator_of_isOperator h
  rw [applyOperator, ho]
  dsimp only
  split
  · exact Outcome.fair_done _
  · exact Outcome.fair_raise _ _ _ _

theorem fair_readNumber (mark : τ) {text : String} (h : IsNumeral text) :
    (readNumber mark text).Fair := by
  rw [readNumber]
  split
  · exact Outcome.fair_done _
  · next hread => exact Outcome.fair_failed ⟨text, h, hread, rfl⟩

theorem mem_of_lookup {entries : List (String × α)} {name : String} {a : α}
    (h : entries.lookup name = some a) : (name, a) ∈ entries := by
  obtain ⟨front, rest, rfl, -⟩ := List.lookup_eq_some_iff.mp h
  exact List.mem_append_right front List.mem_cons_self

/-- The meaning of a name has a legible body if it is a function. -/
def Binding.Legible : Binding τ → Prop
  | value _ => True
  | function f => f.body.Legible

/-- The functions in scope have legible bodies. -/
def Names.Legible (σ : Names τ) : Prop := ∀ e ∈ σ.entries, e.2.Legible

/-- The functions in scope have legible bodies, and a frame is open. -/
def Names.Sound (σ : Names τ) : Prop := σ.Legible ∧ σ.frames ≠ []

theorem Names.Legible.body {σ : Names τ} (h : σ.Legible) {name : String} {f : Function τ}
    (hf : σ.function? name = some f) : f.body.Legible := by
  rw [Names.function?] at hf
  split at hf
  · next f' hget =>
    obtain rfl := Option.some.inj hf
    exact h _ (mem_of_lookup hget)
  · cases hf

namespace Expr

mutual

/-- Legible arguments in place of the names of a legible expression keep it legible. -/
theorem legible_substitute {σ : Names τ} {args : List (String × Expr τ)}
    (hargs : ∀ a ∈ args, a.2.Legible) :
    (e : Expr τ) → e.Legible → ∀ e', e.substitute σ args = .ok e' → e'.Legible
  | name id, he, e', h => by
    rw [substitute] at h
    split at h
    · next arg hlookup =>
      obtain rfl := Except.ok.inj h
      exact hargs _ (mem_of_lookup hlookup)
    · split at h
      · obtain rfl := Except.ok.inj h
        exact he
      · cases h
  | number m text, he, e', h => Except.ok.inj h ▸ he
  | negative m text, he, e', h => Except.ok.inj h ▸ he
  | binary m op l r, he, e', h => by
    rw [substitute] at h
    cases hl : l.substitute σ args with
    | error x => rw [hl] at h; cases h
    | ok l' =>
      cases hr : r.substitute σ args with
      | error x => rw [hl, hr] at h; cases h
      | ok r' =>
        rw [hl, hr] at h
        obtain rfl := Except.ok.inj h
        exact ⟨he.1, legible_substitute hargs l he.2.1 l' hl,
          legible_substitute hargs r he.2.2 r' hr⟩
  | call f es, he, e', h => by
    rw [substitute] at h
    cases hes : substituteAll σ args es with
    | error x => rw [hes] at h; cases h
    | ok es' =>
      rw [hes] at h
      obtain rfl := Except.ok.inj h
      exact ⟨he.1, allLegible_substituteAll hargs es he.2 es' hes⟩
  | list m es, he, e', h => by
    rw [substitute] at h
    cases hes : substituteAll σ args es with
    | error x => rw [hes] at h; cases h
    | ok es' =>
      rw [hes] at h
      obtain rfl := Except.ok.inj h
      exact allLegible_substituteAll hargs es he es' hes

theorem allLegible_substituteAll {σ : Names τ} {args : List (String × Expr τ)}
    (hargs : ∀ a ∈ args, a.2.Legible) :
    (es : List (Expr τ)) → AllLegible es → ∀ es', substituteAll σ args es = .ok es' →
      AllLegible es'
  | [], _, es', h => Except.ok.inj h ▸ trivial
  | e :: es, he, es', h => by
    rw [substituteAll] at h
    cases he' : e.substitute σ args with
    | error x => rw [he'] at h; cases h
    | ok e₁ =>
      cases hes : substituteAll σ args es with
      | error x => rw [he', hes] at h; cases h
      | ok es₁ =>
        rw [he', hes] at h
        obtain rfl := Except.ok.inj h
        exact ⟨legible_substitute hargs e he.1 e₁ he',
          allLegible_substituteAll hargs es he.2 es₁ hes⟩

end

mutual

/-- An expression fails fairly if the calls in it do. -/
theorem fair_evalWith {σ : Names τ} {apply : Ident τ → List (Expr τ) → Outcome τ Value}
    (happly : ∀ f args, AllLegible args → (apply f args).Fair) :
    (e : Expr τ) → e.Legible → (evalWith σ apply e).Fair
  | name id, _ => by
    rw [evalWith]
    split
    · exact Outcome.fair_done _
    · exact Outcome.fair_raise _ _ _ _
  | number m text, he => by
    rw [evalWith]
    exact (fair_readNumber m he).bind fun _ => Outcome.fair_done _
  | negative m text, he => by
    rw [evalWith]
    exact (fair_readNumber m he).bind fun _ => Outcome.fair_done _
  | binary m op l r, he => by
    rw [evalWith]
    refine (fair_evalWith happly l he.2.1).bind fun a => ?_
    refine (fair_evalWith happly r he.2.2).bind fun b => ?_
    exact fair_applyOperator m he.1 a b
  | list m es, he => by
    rw [evalWith]
    exact (fair_evalAllWith happly es he).bind fun _ => Outcome.fair_done _
  | call f args, he => by
    rw [evalWith]
    split
    · exact happly f args he.2
    · split
      · next a => exact (fair_evalWith happly a he.2.1).bind fun _ => Outcome.fair_done _
      · exact Outcome.fair_raise _ _ _ _

theorem fair_evalAllWith {σ : Names τ} {apply : Ident τ → List (Expr τ) → Outcome τ Value}
    (happly : ∀ f args, AllLegible args → (apply f args).Fair) :
    (es : List (Expr τ)) → AllLegible es → (evalAllWith σ apply es).Fair
  | [], _ => Outcome.fair_done _
  | e :: es, he => by
    rw [evalAllWith]
    refine (fair_evalWith happly e he.1).bind fun v => ?_
    exact (fair_evalAllWith happly es he.2).bind fun _ => Outcome.fair_done _

end

theorem fair_applyFunction {σ : Names τ} (hσ : σ.Legible)
    {evalBody : Expr τ → Outcome τ Value} (hbody : ∀ e, e.Legible → (evalBody e).Fair)
    (f : Ident τ) (args : List (Expr τ)) (hargs : AllLegible args) :
    (applyFunction σ evalBody f args).Fair := by
  rw [applyFunction]
  split
  · exact Outcome.fair_raise _ _ _ _
  · next fn hfn =>
    split
    · split
      · next body hsubst =>
        have hlegible : ∀ a ∈ fn.params.zip args, a.2.Legible := by
          intro a ha
          exact allLegible_iff.mp hargs a.2 (List.of_mem_zip ha).2
        exact hbody body (legible_substitute hlegible fn.body (hσ.body hfn) body hsubst)
      · exact Outcome.fair_failed trivial
    · exact Outcome.fair_raise _ _ _ _

/-- **Evaluation of a legible expression fails fairly**, however deep its calls nest. -/
theorem fair_eval {σ : Names τ} (hσ : σ.Legible) (bound : Nat) (e : Expr τ) (he : e.Legible) :
    (e.eval σ bound).Fair := by
  induction bound generalizing e with
  | zero => exact fair_evalWith (fun _ _ _ => Outcome.fair_unfinished) e he
  | succ bound ih => exact fair_evalWith (fair_applyFunction hσ ih) e he

end Expr

/-! ### Actions -/

namespace Action

variable {Q : Names τ → Prop}

/-- From a scope with `Q` the action fails fairly, if at all, and leads to a scope with `Q`, however
it ends. -/
def Fair (Q : Names τ → Prop) (x : Action τ α) : Prop :=
  ∀ m, Q m.names → (x m).1.Fair ∧ Q (x m).2.names

theorem fair_ofOutcome {o : Outcome τ α} (ho : o.Fair) : Fair Q (ofOutcome o) :=
  fun _ hm => ⟨ho, hm⟩

theorem fair_raise (kind : RuntimeError.Kind) (name : String) (mark : τ) (detail : String) :
    Fair Q (raise kind name mark detail : Action τ α) :=
  fair_ofOutcome (Outcome.fair_raise kind name mark detail)

theorem fair_query {f : Names τ → Outcome τ α} (hf : ∀ σ, Q σ → (f σ).Fair) :
    Fair Q (query f) :=
  fun m hm => ⟨hf m.names hm, hm⟩

theorem fair_refuseTaken (id : Ident τ) : Fair Q (refuseTaken id) := by
  intro m hm
  rw [refuseTaken]
  split
  · exact ⟨Outcome.fair_raise _ _ _ _, hm⟩
  · exact ⟨Outcome.fair_done _, hm⟩

theorem fair_printLine (mark : τ) (line : String) : Fair Q (printLine mark line) := by
  intro m hm
  rw [printLine]
  split
  · exact ⟨Outcome.fair_done _, hm⟩
  · exact ⟨Outcome.fair_failed trivial, hm⟩

theorem fair_bind {x : Action τ α} {f : α → Action τ β} (hx : Fair Q x)
    (hf : ∀ a, Fair Q (f a)) : Fair Q (x >>= f) := by
  intro m hm
  obtain ⟨ho, hm'⟩ := hx m hm
  rw [bind_apply]
  rcases h : x m with ⟨a | e | _, m'⟩
  · rw [h] at hm'
    exact hf a m' hm'
  · rw [h] at ho hm'
    exact ⟨Outcome.fair_failed (ho e rfl), hm'⟩
  · rw [h] at hm'
    exact ⟨Outcome.fair_unfinished, hm'⟩

/-- What is fair in one turn is so in a run over a list. -/
theorem fair_forEach {act : α → Action τ Unit} {as : List α}
    (hact : ∀ a ∈ as, Fair Q (act a)) : Fair Q (forEach act as) := by
  induction as with
  | nil => exact fun _ hm => ⟨Outcome.fair_done _, hm⟩
  | cons a as ih =>
    intro m hm
    have ha := hact a List.mem_cons_self m hm
    rw [forEach]
    split
    · next h =>
      rw [h] at ha
      exact ih (fun b hb => hact b (List.mem_cons_of_mem a hb)) _ ha.2
    · exact ha

/-- What is fair in one turn is so in a run over numbers. -/
theorem fair_countUp {act : Float → Action τ Unit} (hact : ∀ i, Fair Q (act i))
    (stop step : Float) (bound : Nat) (i : Float) :
    Fair Q (countUp act stop step bound i) := by
  induction bound generalizing i with
  | zero =>
    intro m hm
    rw [countUp]
    split
    · exact ⟨Outcome.fair_unfinished, hm⟩
    · exact ⟨Outcome.fair_done _, hm⟩
  | succ bound ih =>
    intro m hm
    have hi := hact i m hm
    rw [countUp]
    split
    · split
      · next h =>
        rw [h] at hi
        exact ih _ _ hi.2
      · exact hi
    · exact ⟨Outcome.fair_done _, hm⟩

/-- In an open frame a name is bound without a fault, and then it is bound. -/
theorem bindNew_of_sound (id : Ident τ) {b : Binding τ} (hb : b.Legible) {m : Machine τ}
    (hm : m.names.Sound) :
    (∃ e, bindNew id b m = (.failed (.runtime e), m)) ∨
    (∃ m', bindNew id b m = (.done (), m') ∧ m'.names.Sound ∧ m'.names.has id.name = true) := by
  rw [bindNew]
  split
  · exact .inl ⟨_, rfl⟩
  · next htaken =>
    have hfree := Names.has_eq_false_of_not_isTaken htaken
    obtain ⟨top, rest, hframes⟩ := List.exists_cons_of_ne_nil hm.2
    refine .inr ?_
    simp only [Scope.put, hfree, hframes, Bool.false_eq_true, if_false]
    refine ⟨_, rfl, ⟨List.forall_mem_cons.mpr ⟨hb, hm.1⟩, List.cons_ne_nil _ _⟩, ?_⟩
    exact (Scope.has_eq_true_iff _ _).mpr ⟨(id.name, b), List.mem_cons_self, rfl⟩

theorem fair_bindNew (id : Ident τ) {b : Binding τ} (hb : b.Legible) :
    Fair Names.Sound (bindNew id b) := by
  intro m hm
  obtain ⟨e, he⟩ | ⟨m', hdone, hm', -⟩ := bindNew_of_sound id hb hm
  · rw [he]
    exact ⟨Outcome.fair_failed trivial, hm⟩
  · rw [hdone]
    exact ⟨Outcome.fair_done _, hm'⟩

/-- Behind a new name stands what is fair where the name is bound. -/
theorem fair_bindNew_bind {id : Ident τ} {b : Binding τ} (hb : b.Legible)
    {k : Action τ Unit} (hk : Fair (fun σ => σ.Sound ∧ σ.has id.name = true) k) :
    Fair Names.Sound (do bindNew id b; k) := by
  intro m hm
  rw [bind_apply]
  obtain ⟨e, he⟩ | ⟨m', hdone, hm', hhas⟩ := bindNew_of_sound id hb hm
  · rw [he]
    exact ⟨Outcome.fair_failed trivial, hm⟩
  · rw [hdone]
    obtain ⟨ho, hq⟩ := hk m' ⟨hm', hhas⟩
    exact ⟨ho, hq.1⟩

/-- A name that is bound is given another value without a fault, and stays bound. -/
theorem fair_assign (id : Ident τ) (v : Value) :
    Fair (fun σ => σ.Sound ∧ σ.has id.name = true) (assign id v) := by
  rintro m ⟨hsound, hhas⟩
  rw [assign, Scope.set, if_pos hhas]
  refine ⟨Outcome.fair_done _, ⟨fun e he => ?_, hsound.2⟩, ?_⟩
  · obtain ⟨e', he', rfl⟩ := List.mem_map.mp he
    split
    · trivial
    · exact hsound.1 e' he'
  · obtain ⟨e, he, hkey⟩ := (Scope.has_eq_true_iff _ _).mp hhas
    refine (Scope.has_eq_true_iff _ _).mpr ⟨_, List.mem_map_of_mem he, ?_⟩
    rw [if_pos (beq_iff_eq.mpr hkey)]

/-- A frame can be opened and closed around growth that is fair in a frame. -/
theorem fair_inFrame {x : Action τ Unit} (hgrows : Grows x)
    (hx : Fair Names.Sound x) (hQ : ∀ σ, Q σ → σ.Legible) (kind : FrameKind) :
    Fair Q (inFrame kind x) := by
  intro m hm
  have hsound : Names.Sound (m.names.push kind) := ⟨hQ m.names hm, List.cons_ne_nil _ _⟩
  rw [inFrame_apply hgrows kind m]
  exact ⟨(hx { m with names := m.names.push kind } hsound).1, hm⟩

end Action

/-! ### Statements -/

namespace Stmt

open ListCalc.Action

variable {Q : Names τ → Prop}

theorem fair_evalNow (hQ : ∀ σ, Q σ → σ.Legible) (bound : Nat) {e : Expr τ}
    (he : e.Legible) : Action.Fair Q (e.evalNow bound) :=
  fair_query fun σ hσ => Expr.fair_eval (hQ σ hσ) bound e he

theorem fair_evalNumber (hQ : ∀ σ, Q σ → σ.Legible) (bound : Nat) {e : Expr τ}
    (he : e.Legible) : Action.Fair Q (e.evalNumber bound) := by
  refine fair_bind (fair_evalNow hQ bound he) fun v => ?_
  cases v with
  | scalar x => exact fair_ofOutcome (Outcome.fair_done x)
  | list vs => exact fair_raise _ _ _ _

theorem legible_of_sound (σ : Names τ) (h : σ.Sound) : σ.Legible := h.1

theorem fair_runDeclare (bound : Nat) (x : Ident τ) {e : Expr τ} (he : e.Legible) :
    Action.Fair Names.Sound (runDeclare bound x e) :=
  fair_bind (fair_refuseTaken x) fun _ =>
    fair_bind (fair_evalNow legible_of_sound bound he) fun _ =>
      fair_bindNew x trivial

theorem fair_runDefine (f : Ident τ) (params : List (Ident τ)) {body : Expr τ}
    (hbody : body.Legible) : Action.Fair Names.Sound (runDefine f params body) := by
  refine fair_bind (fair_refuseTaken f) fun _ => ?_
  split
  · exact fair_raise _ _ _ _
  · exact fair_bindNew f hbody

theorem fair_runPair (bound : Nat) (pair : Expr τ × Expr τ) (he : pair.2.Legible) :
    Action.Fair Names.Sound (runPair bound pair) := by
  rw [runPair]
  split
  · exact fair_runDeclare bound _ he
  · exact fair_raise _ _ _ _

theorem fair_runUnpack (bound : Nat) (mark : τ) (names : Expr τ) {values : Expr τ}
    (hvalues : values.Legible) :
    Action.Fair Names.Sound (runUnpack bound mark names values) := by
  unfold runUnpack
  split
  · next xs _ es =>
    split
    · refine fair_forEach fun pair hpair => fair_runPair bound pair ?_
      exact Expr.allLegible_iff.mp hvalues pair.2 (List.of_mem_zip hpair).2
    · exact fair_raise _ _ _ _
  · exact fair_raise _ _ _ _
  · exact fair_raise _ _ _ _

/-- A counting loop: every turn finds the variable bound, whatever the turns before have done. -/
theorem fair_runCount (bound : Nat) {start stop step : Expr τ} (hstart : start.Legible)
    (hstop : stop.Legible) (hstep : step.Legible) (var : Ident τ) {body : Action τ Unit}
    (hgrows : Grows body) (hbody : Action.Fair Names.Sound body) :
    Action.Fair Names.Sound (runCount bound start stop var step body) := by
  refine fair_bind (fair_evalNumber legible_of_sound bound hstart) fun a => ?_
  refine fair_bind (fair_evalNumber legible_of_sound bound hstop) fun b => ?_
  refine fair_bind (fair_evalNumber legible_of_sound bound hstep) fun s => ?_
  have hturn : ∀ i, Action.Fair (fun σ => σ.Sound ∧ σ.has var.name = true)
      (do assign var (.scalar i); inFrame .block body) := fun i =>
    fair_bind (fair_assign var _) fun _ =>
      fair_inFrame hgrows hbody (fun σ hσ => hσ.1.1) .block
  refine fair_inFrame (grows_countTurns hgrows var a b s bound) ?_ legible_of_sound .loop
  refine fair_bindNew_bind ?_ (fair_countUp hturn b s bound a)
  trivial

/-- A loop over a list: the variable is bound in every turn. -/
theorem fair_runEach (bound : Nat) (var : Ident τ) {source : Expr τ}
    (hsource : source.Legible) {body : Action τ Unit} (hgrows : Grows body)
    (hbody : Action.Fair Names.Sound body) :
    Action.Fair Names.Sound (runEach bound var source body) := by
  refine fair_bind (fair_evalNow legible_of_sound bound hsource) fun v => ?_
  have hturn : ∀ w, Action.Fair (fun σ => σ.Sound ∧ σ.has var.name = true)
      (do inFrame .block body; assign var w) := fun w =>
    fair_bind (fair_inFrame hgrows hbody (fun σ hσ => hσ.1.1) .block) fun _ =>
      fair_assign var w
  split
  · exact fair_raise _ _ _ _
  · exact fair_raise _ _ _ _
  · next v vs =>
    refine fair_inFrame (grows_listTurns hgrows var v vs) ?_ legible_of_sound .loop
    refine fair_bindNew_bind ?_ (fair_forEach fun w _ => hturn w)
    trivial

mutual

/-- **A legible statement fails fairly**, from any scope with an open frame. -/
theorem fair_run (bound : Nat) :
    (s : Stmt τ) → s.Legible → Action.Fair Names.Sound (s.run bound)
  | declare _ x _, h => fair_runDeclare bound x h.2
  | define f params _, h => fair_runDefine f params h.2.2
  | print m _, h =>
    fair_bind (fair_evalNow legible_of_sound bound h) fun _ => fair_printLine m _
  | count _ _ _ i _ body, h =>
    fair_runCount bound h.1 h.2.1 h.2.2.2.1 i (grows_runAll bound body)
      (fair_runAll bound body h.2.2.2.2)
  | each _ i _ body, h =>
    fair_runEach bound i h.2.1 (grows_runAll bound body) (fair_runAll bound body h.2.2)
  | block _ body, h =>
    fair_inFrame (grows_runAll bound body) (fair_runAll bound body h) legible_of_sound
      .block
  | unpack m names _, h => fair_runUnpack bound m names h.2.2

/-- Legible statements in order fail fairly. -/
theorem fair_runAll (bound : Nat) :
    (ss : List (Stmt τ)) → AllLegible ss → Action.Fair Names.Sound (runAll bound ss)
  | [], _ => fair_ofOutcome (Outcome.fair_done ())
  | s :: ss, h =>
    fair_bind (fair_run bound s h.1) fun _ => fair_runAll bound ss h.2

end

end Stmt

/-! ### Sessions -/

/-- What a call runs or evaluates is legible. -/
def Call.Legible : Call τ → Prop
  | interpret _ p => Stmt.AllLegible p
  | execute _ p => Stmt.AllLegible p
  | evaluate _ e => e.Legible
  | close => True

namespace Session

variable {allowed : Call τ → Prop} {s : Session τ}

/-- A legible call fails fairly in a session whose functions are legible, and keeps them so. -/
theorem fair_perform (hframe : s.HasLastingFrame) (hs : s.machine.names.Legible)
    {c : Call τ} (hc : c.Legible) :
    (s.perform c).1.Fair ∧ (s.perform c).2.machine.names.Legible := by
  cases c with
  | interpret bound p =>
    exact Action.fair_inFrame (Stmt.grows_runAll bound p) (Stmt.fair_runAll bound p hc)
      (fun _ hσ => hσ) .program s.machine hs
  | execute bound p =>
    have hopened : Names.Sound s.opened.machine.names := by
      refine ⟨?_, by rw [hframe.opened]; exact List.cons_ne_nil _ _⟩
      rw [Session.opened]
      split <;> exact hs
    obtain ⟨ho, hsound⟩ := Stmt.fair_runAll bound p hc s.opened.machine hopened
    exact ⟨ho, hsound.1⟩
  | evaluate bound e =>
    exact ⟨(Expr.fair_eval hs bound e hc).bind fun _ => Outcome.fair_done (), hs⟩
  | close =>
    show s.close.1.Fair ∧ s.close.2.machine.names.Legible
    rw [Session.close]
    split
    · next hopen =>
      rw [HasLastingFrame, if_pos hopen] at hframe
      obtain ⟨names, hframes⟩ := hframe
      simp only [Scope.pop, hframes]
      exact ⟨Outcome.fair_done (), fun e he => hs e (List.mem_filter.mp he).1⟩
    · exact ⟨Outcome.fair_done (), hs⟩

/-- In particular it causes no fault. -/
theorem faultless_perform (hframe : s.HasLastingFrame) (hs : s.machine.names.Legible)
    {c : Call τ} (hc : c.Legible) :
    (s.perform c).1.Faultless ∧ (s.perform c).2.machine.names.Legible :=
  (fair_perform hframe hs hc).imp_left Outcome.Fair.faultless

/-- After legible calls all functions in scope are legible. -/
theorem Reachable.legible (h : s.Reachable allowed) (hallowed : ∀ c, allowed c → c.Legible) :
    s.machine.names.Legible := by
  induction h with
  | start out => exact fun e he => absurd he List.not_mem_nil
  | withWriter _ _ ih => exact ih
  | step h hc ih => exact (fair_perform h.hasLastingFrame ih (hallowed _ hc)).2

end Session

end ListCalc
