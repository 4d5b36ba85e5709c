/-
Where the marks of failures come from.

Running copies marks and makes none up.  A program whose marks all have some property
is a program over the marks with that property, and such a program has no other marks
to fail with, however often its expressions are copied into one another.

* `Expr.Marked`, `Stmt.Marked`, `Stmt.AllMarked` — syntax whose marks have a property.
  Statements may have a step of a loop besides whose mark does not matter, since
  evaluating it as a number never fails;
* `Session.mark_of_interpret` — the marks of failures have the property, too.
-/
import ListCalc.Proofs.Marks.Run
import ListCalc.Session

namespace ListCalc

variable {τ υ : Type} {P : τ → Prop}

/-- The mark of what has failed; a fault has none. -/
def Failure.mark? : Failure τ → Option τ
  | runtime e => some e.mark
  | literal m _ => some m
  | write m _ => some m
  | fault _ => none

theorem Failure.mark?_map (f : τ → υ) (e : Failure τ) : (e.map f).mark? = e.mark?.map f := by
  cases e <;> rfl

theorem Ident.exists_map {id : Ident τ} (h : P id.mark) :
    ∃ id' : Ident {t // P t}, id'.map Subtype.val = id :=
  ⟨⟨⟨id.mark, h⟩, id.name⟩, rfl⟩

/-! ### Expressions -/

namespace Expr

/-- The marks of the expression have `P`: it is one over such marks. -/
def Marked (P : τ → Prop) (e : Expr τ) : Prop :=
  ∃ e' : Expr {t // P t}, e'.map Subtype.val = e

/-- Expressions whose marks have `P` are ones over such marks. -/
theorem exists_mapAll {es : List (Expr τ)} (h : ∀ e ∈ es, e.Marked P) :
    ∃ es' : List (Expr {t // P t}), mapAll Subtype.val es' = es := by
  induction es with
  | nil => exact ⟨[], rfl⟩
  | cons e es ih =>
    obtain ⟨⟨e', rfl⟩, hes⟩ := List.forall_mem_cons.mp h
    obtain ⟨es', rfl⟩ := ih hes
    exact ⟨e' :: es', rfl⟩

theorem marked_name {id : Ident τ} (h : P id.mark) : (name id).Marked P := by
  obtain ⟨id', rfl⟩ := Ident.exists_map h
  exact ⟨name id', rfl⟩

theorem marked_number {m : τ} (h : P m) (text : String) : (number m text).Marked P :=
  ⟨number ⟨m, h⟩ text, rfl⟩

theorem marked_negative {m : τ} (h : P m) (text : String) : (negative m text).Marked P :=
  ⟨negative ⟨m, h⟩ text, rfl⟩

theorem marked_binary {m : τ} (h : P m) (op : String) {l r : Expr τ} (hl : l.Marked P)
    (hr : r.Marked P) : (binary m op l r).Marked P := by
  obtain ⟨l', rfl⟩ := hl
  obtain ⟨r', rfl⟩ := hr
  exact ⟨binary ⟨m, h⟩ op l' r', rfl⟩

theorem marked_call {f : Ident τ} (hf : P f.mark) {args : List (Expr τ)}
    (hargs : ∀ e ∈ args, e.Marked P) : (call f args).Marked P := by
  obtain ⟨f', rfl⟩ := Ident.exists_map hf
  obtain ⟨args', rfl⟩ := exists_mapAll hargs
  exact ⟨call f' args', rfl⟩

theorem marked_list {m : τ} (h : P m) {es : List (Expr τ)} (hes : ∀ e ∈ es, e.Marked P) :
    (list m es).Marked P := by
  obtain ⟨es', rfl⟩ := exists_mapAll hes
  exact ⟨list ⟨m, h⟩ es', rfl⟩

/-- As a number, the expression is like one whose marks have `P`. -/
def MarkedNumber (P : τ → Prop) (e : Expr τ) : Prop :=
  ∃ e' : Expr {t // P t}, ∀ bound, (e'.map Subtype.val).evalNumber bound = e.evalNumber bound

theorem Marked.markedNumber {e : Expr τ} (h : e.Marked P) : e.MarkedNumber P := by
  obtain ⟨e', rfl⟩ := h
  exact ⟨e', fun _ => rfl⟩

/-- A number that can be read is one with any mark. -/
theorem markedNumber_of_read {text : String} (hread : (Number.read? text).isSome = true) {t : τ}
    (ht : P t) (m : τ) : (number m text).MarkedNumber P := by
  obtain ⟨x, hx⟩ := Option.isSome_iff_exists.mp hread
  have hvalue : ∀ (bound : Nat) (m : τ), (number m text).evalNumber bound = pure x := by
    intro bound m
    have heval : ∀ σ, (number m text).eval σ bound = .done (.scalar x) := by
      intro σ
      cases bound <;> rw [eval, evalWith, readNumber, hx] <;> rfl
    funext machine
    rw [evalNumber, Action.bind_apply, evalNow, Action.query, heval]
  exact ⟨number ⟨t, ht⟩ text, fun bound => (hvalue bound t).trans (hvalue bound m).symm⟩

end Expr

/-! ### Statements -/

namespace Stmt

/-- The statement runs like one whose marks have `P`. -/
def Marked (P : τ → Prop) (s : Stmt τ) : Prop :=
  ∃ s' : Stmt {t // P t}, ∀ bound, (s'.map Subtype.val).run bound = s.run bound

/-- The statements run like some whose marks have `P`. -/
def AllMarked (P : τ → Prop) (ss : List (Stmt τ)) : Prop :=
  ∃ ss' : List (Stmt {t // P t}), ∀ bound, runAll bound (mapAll Subtype.val ss') = runAll bound ss

theorem marked_declare {m : τ} (h : P m) {x : Ident τ} (hx : P x.mark) {e : Expr τ}
    (he : e.Marked P) : (declare m x e).Marked P := by
  obtain ⟨x', rfl⟩ := Ident.exists_map hx
  obtain ⟨e', rfl⟩ := he
  exact ⟨declare ⟨m, h⟩ x' e', fun _ => rfl⟩

theorem marked_define {f : Ident τ} (hf : P f.mark) {params : List (Ident τ)}
    (hparams : ∀ p ∈ params, P p.mark) {body : Expr τ} (hbody : body.Marked P) :
    (define f params body).Marked P := by
  obtain ⟨f', rfl⟩ := Ident.exists_map hf
  obtain ⟨body', rfl⟩ := hbody
  have hnames : ∃ params' : List (Ident {t // P t}),
      params'.map (Ident.map Subtype.val) = params := by
    induction params with
    | nil => exact ⟨[], rfl⟩
    | cons p params ih =>
      obtain ⟨hp, hrest⟩ := List.forall_mem_cons.mp hparams
      obtain ⟨p', rfl⟩ := Ident.exists_map hp
      obtain ⟨params', rfl⟩ := ih hrest
      exact ⟨p' :: params', rfl⟩
  obtain ⟨params', rfl⟩ := hnames
  exact ⟨define f' params' body', fun _ => rfl⟩

theorem marked_print {m : τ} (h : P m) {e : Expr τ} (he : e.Marked P) : (print m e).Marked P := by
  obtain ⟨e', rfl⟩ := he
  exact ⟨print ⟨m, h⟩ e', fun _ => rfl⟩

/-- The step of a counting loop is a number and nothing else. -/
theorem marked_count {m : τ} (h : P m) {start stop : Expr τ} (hstart : start.Marked P)
    (hstop : stop.Marked P) {var : Ident τ} (hvar : P var.mark) {step : Expr τ}
    (hstep : step.MarkedNumber P) {body : List (Stmt τ)} (hbody : AllMarked P body) :
    (count m start stop var step body).Marked P := by
  obtain ⟨start', rfl⟩ := hstart
  obtain ⟨stop', rfl⟩ := hstop
  obtain ⟨var', rfl⟩ := Ident.exists_map hvar
  obtain ⟨step', hstep⟩ := hstep
  obtain ⟨body', hbody⟩ := hbody
  refine ⟨count ⟨m, h⟩ start' stop' var' step' body', fun bound => ?_⟩
  rw [map, run, run, hbody, runCount, runCount, hstep]

theorem marked_each {m : τ} (h : P m) {var : Ident τ} (hvar : P var.mark) {source : Expr τ}
    (hsource : source.Marked P) {body : List (Stmt τ)} (hbody : AllMarked P body) :
    (each m var source body).Marked P := by
  obtain ⟨var', rfl⟩ := Ident.exists_map hvar
  obtain ⟨source', rfl⟩ := hsource
  obtain ⟨body', hbody⟩ := hbody
  refine ⟨each ⟨m, h⟩ var' source' body', fun bound => ?_⟩
  rw [map, run, run, hbody]

theorem marked_block {m : τ} (h : P m) {body : List (Stmt τ)} (hbody : AllMarked P body) :
    (block m body).Marked P := by
  obtain ⟨body', hbody⟩ := hbody
  refine ⟨block ⟨m, h⟩ body', fun bound => ?_⟩
  rw [map, run, run, hbody]

theorem marked_unpack {m : τ} (h : P m) {names values : Expr τ} (hnames : names.Marked P)
    (hvalues : values.Marked P) : (unpack m names values).Marked P := by
  obtain ⟨names', rfl⟩ := hnames
  obtain ⟨values', rfl⟩ := hvalues
  exact ⟨unpack ⟨m, h⟩ names' values', fun _ => rfl⟩

theorem allMarked_nil : AllMarked P ([] : List (Stmt τ)) := ⟨[], fun _ => rfl⟩

theorem allMarked_cons {s : Stmt τ} (hs : s.Marked P) {ss : List (Stmt τ)} (hss : AllMarked P ss) :
    AllMarked P (s :: ss) := by
  obtain ⟨s', hs⟩ := hs
  obtain ⟨ss', hss⟩ := hss
  refine ⟨s' :: ss', fun bound => ?_⟩
  rw [mapAll, runAll, runAll, hs, hss]

end Stmt

/-! ### Failures -/

/-- What does to a state what an action over marks with `P` does fails with such a mark. -/
theorem Action.Mirrors.mark_of_failed {α : Type} {x : Action {t // P t} α} {y : Action τ α}
    (hxy : Mirrors Subtype.val x y) {m : Machine {t // P t}} {e : Failure τ}
    (h : (y (m.map Subtype.val)).1 = .failed e) : ∀ t ∈ e.mark?, P t := by
  rw [hxy m] at h
  cases hx : (x m).1 with
  | done a =>
    rw [hx] at h
    cases h
  | failed e' =>
    rw [hx] at h
    obtain rfl := Outcome.failed.inj h
    rw [Failure.mark?_map]
    intro t ht
    obtain ⟨t', -, rfl⟩ := Option.map_eq_some_iff.mp ht
    exact t'.property
  | unfinished =>
    rw [hx] at h
    cases h

/-- **A program fails with one of its marks.** -/
theorem Session.mark_of_interpret {p : Program τ} (hp : Stmt.AllMarked P p) {bound : Nat}
    {out : Writer} {e : Failure τ} (h : ((start out).interpret bound p).1 = .failed e) :
    ∀ t ∈ e.mark?, P t := by
  obtain ⟨p', hrun⟩ := hp
  have hmirror := Action.mirrors_inFrame
    (Stmt.mirrors_runAll (Subtype.val : {t // P t} → τ) bound p') .program
  rw [hrun bound] at hmirror
  exact hmirror.mark_of_failed (m := (start out).machine) h

end ListCalc
