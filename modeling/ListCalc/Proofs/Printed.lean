/-
Reading back printed values.

The text of a value whose numbers are finite is that of a literal: numbers,
behind a minus sign or not, in nested lists.  A literal has its value in any
names, whatever marks it carries.

* `Value.render_literal`, `Value.legible_literal` — the literal of a value is
  legible and has the text of the value;
* `Value.eval_literal` — the literal of a value has that value;
* `Value.parse_render` — what is printed for a value is read as an expression with
  that value.
-/
import ListCalc.Proofs.CallByValue
import ListCalc.Proofs.Marks.Eval
import ListCalc.Proofs.Number.Literal
import ListCalc.Proofs.RoundTrip

namespace ListCalc

open Token

variable {τ : Type}

/-! ### Legible programs -/

/-- A legible program without statements that are not read again is read back, up to marks. -/
theorem exists_parse_of_rereadable {p : Program τ} (hlegible : Stmt.AllLegible p)
    (hreread : ∀ s ∈ p, s.Rereadable) (file : String) :
    ∃ q, parse file p.render = .ok q ∧ Program.bare q = Program.bare p := by
  rcases Parser.program_spell_settled hlegible with ⟨-, p', hp', hbare⟩ | ⟨hnot, -⟩
  · rw [← Parser.program_spell] at hp'
    obtain ⟨p'', q, hp'', hq, hbare'⟩ | ⟨c, e, hc, -⟩ :=
      parse_of_scans (Program.scans_render hlegible) file
    · obtain rfl : p' = p'' := Except.ok.inj (hp'.symm.trans hp'')
      exact ⟨q, hq, hbare'.trans hbare⟩
    · rw [hp'] at hc
      cases hc
  · exact absurd hreread hnot

/-- A statement whose bare syntax is a declaration is one. -/
theorem Stmt.eq_declare_of_bare {s : Stmt τ} {name : String} {e : Expr Unit}
    (h : s.bare = .declare () ⟨(), name⟩ e) :
    ∃ mark m e', s = .declare mark ⟨m, name⟩ e' ∧ e'.bare = e := by
  cases s with
  | declare mark x e' =>
    obtain ⟨m, y⟩ := x
    rw [Stmt.bare, Stmt.map] at h
    obtain ⟨-, hname, he⟩ := Stmt.declare.inj h
    obtain rfl : y = name := congrArg Ident.name hname
    exact ⟨mark, m, e', rfl, he⟩
  | _ => cases h

/-- An expression has the value of its bare syntax, where that has one in any names. -/
theorem Expr.eval_of_bare {e : Expr τ} {v : Value}
    (h : ∀ (σ : Names Unit) bound, e.bare.eval σ bound = .done v) (σ : Names τ) (bound : Nat) :
    e.eval σ bound = .done v := by
  have hmap := h (σ.map fun _ => ()) bound
  rw [Expr.bare, Expr.eval_map] at hmap
  cases heval : e.eval σ bound with
  | done w =>
    rw [heval] at hmap
    exact congrArg Outcome.done (Outcome.done.inj hmap)
  | failed f =>
    rw [heval] at hmap
    cases hmap
  | unfinished =>
    rw [heval] at hmap
    cases hmap

namespace Value

/-! ### Literals -/

mutual

/-- Every number in the value is finite. -/
def isFinite : Value → Bool
  | scalar x => x.isFinite
  | list vs => allFinite vs

/-- Every number in the values is finite. -/
def allFinite : List Value → Bool
  | [] => true
  | v :: vs => v.isFinite && allFinite vs

end

theorem allFinite_cons {v : Value} {vs : List Value} :
    allFinite (v :: vs) = true ↔ v.isFinite = true ∧ allFinite vs = true := by
  rw [allFinite, Bool.and_eq_true]

mutual

/-- The literal of a value. -/
def literal : Value → Expr Unit
  | scalar x =>
    if Number.isNegative x then .negative () (Number.renderMagnitude x)
    else .number () (Number.renderMagnitude x)
  | list vs => .list () (literals vs)

/-- The literals of some values. -/
def literals : List Value → List (Expr Unit)
  | [] => []
  | v :: vs => v.literal :: literals vs

end

mutual

theorem legible_literal : (v : Value) → v.literal.Legible
  | scalar x => by
    rw [literal]
    split
    · exact Number.isNumeral_renderMagnitude x
    · exact Number.isNumeral_renderMagnitude x
  | list vs => by
    rw [literal]
    exact allLegible_literals vs

theorem allLegible_literals : (vs : List Value) → Expr.AllLegible (literals vs)
  | [] => trivial
  | v :: vs => ⟨legible_literal v, allLegible_literals vs⟩

end

mutual

/-- The literal of a value has its text. -/
theorem render_literal : (v : Value) → v.isFinite = true → v.literal.render = v.render
  | scalar x, hx => by
    rw [literal, render, Number.render, if_neg (Number.exponentBits_ne_of_isFinite hx)]
    split <;> rfl
  | list vs, hvs => by rw [literal, Expr.render, render, renderAll_literals vs hvs]

theorem renderAll_literals : (vs : List Value) → allFinite vs = true →
    Expr.renderAll (literals vs) = renderAll vs
  | [], _ => rfl
  | v :: vs, h => by
    obtain ⟨hv, hvs⟩ := allFinite_cons.mp h
    rw [literals, Expr.renderAll, renderAll, render_literal v hv, renderAll_literals vs hvs]

end

theorem readNumber_renderMagnitude {x : Float} (hx : x.isFinite = true) (mark : τ) :
    readNumber mark (Number.renderMagnitude x) = .done x.abs := by
  rw [readNumber, Number.read?_renderMagnitude hx]

variable (σ : Names Unit) (bound : Nat)

mutual

/-- The literal of a value has that value, in any names. -/
theorem eval_literal : (v : Value) → v.isFinite = true → v.literal.eval σ bound = .done v
  | scalar x, hx => by
    rw [literal]
    split
    · next hs =>
      rw [Expr.eval_negative, readNumber_renderMagnitude hx]
      exact congrArg (fun y => Outcome.done (scalar y)) (Number.neg_abs_of_isNegative hx hs)
    · next hs =>
      rw [Expr.eval_number, readNumber_renderMagnitude hx]
      exact congrArg (fun y => Outcome.done (scalar y))
        (Number.abs_of_not_isNegative hx (Bool.not_eq_true _ ▸ hs))
  | list vs, hvs => by
    rw [literal, Expr.eval_list, evalAll_literals vs hvs]
    rfl

theorem evalAll_literals : (vs : List Value) → allFinite vs = true →
    Expr.evalAllWith σ (Expr.callsWithin σ bound) (literals vs) = .done vs
  | [], _ => rfl
  | v :: vs, h => by
    obtain ⟨hv, hvs⟩ := allFinite_cons.mp h
    rw [literals, Expr.evalAllWith_cons, eval_literal v hv, evalAll_literals vs hvs]
    rfl

end

/-! ### Printed values -/

/-- The text of a value whose numbers are finite, behind a name and an equals sign, is one
declaration, and what is declared has that value in any names. -/
theorem parse_render {v : Value} (hv : v.isFinite = true) (file : String) :
    ∃ mark m e, parse file ("x = " ++ v.render) = .ok [.declare mark ⟨m, "x"⟩ e] ∧
      ∀ (σ : Names Token) (bound : Nat), e.eval σ bound = .done v := by
  have hname : IsName "x" := ⟨⟨'x', [], rfl, rfl, by simp⟩, by decide⟩
  have hlegible : Stmt.AllLegible [Stmt.declare () ⟨(), "x"⟩ v.literal] :=
    ⟨⟨hname, legible_literal v⟩, trivial⟩
  obtain ⟨q, hq, hbare⟩ := exists_parse_of_rereadable hlegible
    (List.forall_mem_singleton.mpr ((Stmt.rereadable_of_leaf rfl).mpr ⟨rfl, rfl⟩)) file
  have htext : Program.render [Stmt.declare () ⟨(), "x"⟩ v.literal] = "x = " ++ v.render := by
    rw [← render_literal v hv, Program.render, Stmt.renderAll, Stmt.renderAll,
      String.intercalate_singleton]
    rfl
  rw [htext] at hq
  -- What is parsed differs from the declaration of the literal in its marks only.
  obtain ⟨s, rfl, hs⟩ : ∃ s, q = [s] ∧ s.bare = .declare () ⟨(), "x"⟩ v.literal.bare := by
    cases q with
    | nil => cases hbare
    | cons s ss =>
      obtain ⟨hs, hss⟩ := List.cons.inj hbare
      cases ss with
      | nil => exact ⟨s, rfl, hs⟩
      | cons t ts => cases hss
  obtain ⟨mark, m, e, rfl, he⟩ := Stmt.eq_declare_of_bare hs
  refine ⟨mark, m, e, hq, Expr.eval_of_bare fun σ bound => ?_⟩
  rw [he, Expr.bare, Expr.map_id]
  exact eval_literal σ bound v hv

/-- A negative zero and fractions in nested lists. -/
theorem parse_render_nested :
    (list [scalar (-0.0), list [scalar 0.1, scalar (-2.5e-7)], list []]).render =
      "[-0.0, [0.1, -0.00000025], []]" ∧
    ∃ mark m e, parse "nested" ("x = " ++
        (list [scalar (-0.0), list [scalar 0.1, scalar (-2.5e-7)], list []]).render) =
          .ok [.declare mark ⟨m, "x"⟩ e] ∧
      ∀ (σ : Names Token) (bound : Nat), e.eval σ bound =
        .done (list [scalar (-0.0), list [scalar 0.1, scalar (-2.5e-7)], list []]) := by
  exact ⟨by decide +kernel, parse_render (by decide +kernel) "nested"⟩

end Value

end ListCalc
