/-
No parser of expressions reads past a comment.

Comments are taken out by the parser of statements alone.  A parser of anything
smaller never goes beyond a comment sign: what it answers depends on the tokens in
front of the sign and on the sign itself, and if it succeeds, it leaves the sign and
all that stands behind it.  `Heeds` says so; there is a rule for each way to build
parsers, and a lemma for each production:

* `heeds_expression` — expressions;
* `heeds_declaration`, `heeds_definition`, `heeds_unpacking` — statements without a
  body;
* `heeds_opening` — the part of a loop or a block up to the brace that opens its
  body.
-/
import ListCalc.Proofs.Stmt.Parser

namespace ListCalc

namespace Parser

variable {α β : Type}

/-! ### Answers in front of a comment -/

/-- Two answers to the tokens `front`, a comment sign and different tokens behind it: the same
value and the same tokens left in front of the sign, or the same complaint. -/
inductive Heeding (sign : Token) (front tail tail' : List Token) :
    Except Complaint (α × List Token) → Except Complaint (α × List Token) → Prop where
  | ok {a : α} {rest : List Token} (h : rest <:+ front) :
      Heeding sign front tail tail' (.ok (a, rest ++ sign :: tail)) (.ok (a, rest ++ sign :: tail'))
  | error {c : Complaint} : Heeding sign front tail tail' (.error c) (.error c)

/-- The parser does not look behind a comment sign. -/
def Heeds (p : Parser α) : Prop :=
  ∀ sign front tail tail', sign.kind = .comment →
    Heeding sign front tail tail' (p (front ++ sign :: tail)) (p (front ++ sign :: tail'))

theorem Heeding.mono {sign : Token} {front front' tail tail' : List Token}
    {x y : Except Complaint (α × List Token)} (h : Heeding sign front tail tail' x y)
    (hfront : front <:+ front') : Heeding sign front' tail tail' x y := by
  cases h with
  | ok h => exact .ok (h.trans hfront)
  | error => exact .error

theorem heeds_pure (a : α) : Heeds (pure a : Parser α) :=
  fun _ front _ _ _ => .ok (List.suffix_refl front)

theorem heeds_bind {p : Parser α} {r : α → Parser β} (hp : Heeds p) (hr : ∀ a, Heeds (r a)) :
    Heeds (p >>= r) := by
  intro sign front tail tail' hsign
  have hfirst := hp sign front tail tail' hsign
  rw [bind_apply, bind_apply]
  generalize p (front ++ sign :: tail) = x, p (front ++ sign :: tail') = y at hfirst
  cases hfirst with
  | @ok a rest h => exact (hr a sign rest tail tail' hsign).mono h
  | error => exact .error

theorem heeds_map {p : Parser α} (hp : Heeds p) (f : α → β) : Heeds (f <$> p) := by
  rw [map_eq_pure_bind]
  exact heeds_bind hp fun a => heeds_pure (f a)

theorem heeds_ite {b : Bool} {p q : Parser α} (hp : Heeds p) (hq : Heeds q) :
    Heeds (if b then p else q) := by
  cases b
  · exact hq
  · exact hp

/-! ### Single tokens -/

theorem heeds_needed (what : String) : Heeds (needed what : Parser α) := by
  intro sign front tail tail' _
  cases front <;> exact .error

theorem heeds_unexpected : Heeds (unexpected : Parser α) := by
  intro sign front tail tail' _
  cases front <;> exact .error

theorem heeds_token {k : Kind} (hk : k ≠ .comment) : Heeds (token k) := by
  intro sign front tail tail' hsign
  cases front with
  | nil =>
    have hne : ¬ sign.kind = k := fun h => hk (h.symm.trans hsign)
    rw [List.nil_append, List.nil_append, token, token, if_neg hne, if_neg hne]
    exact .error
  | cons t front =>
    rw [List.cons_append, List.cons_append, token, token]
    by_cases ht : t.kind = k
    · rw [if_pos ht, if_pos ht]
      exact .ok (List.suffix_cons t front)
    · rw [if_neg ht, if_neg ht]
      exact .error

theorem heeds_ident (what : String) : Heeds (ident what) := by
  intro sign front tail tail' hsign
  cases front with
  | nil =>
    have hne : ¬ sign.kind = .ident := by
      rw [hsign]
      decide
    rw [List.nil_append, List.nil_append, ident, ident, if_neg hne, if_neg hne]
    exact .error
  | cons t front =>
    rw [List.cons_append, List.cons_append, ident, ident]
    by_cases ht : t.kind = .ident
    · rw [if_pos ht, if_pos ht]
      exact .ok (List.suffix_cons t front)
    · rw [if_neg ht, if_neg ht]
      exact .error

/-- The next token is the same, whatever stands behind the sign. -/
theorem head?_append_sign (front : List Token) (sign : Token) (tail tail' : List Token) :
    (front ++ sign :: tail).head? = (front ++ sign :: tail').head? := by
  cases front <;> rfl

/-- A token of another kind than a comment comes next only if it stands in front of the sign. -/
theorem head?_any_append_sign {k : Kind} (hk : k ≠ .comment) {sign : Token}
    (hsign : sign.kind = .comment) (front tail : List Token) :
    (front ++ sign :: tail).head?.any (·.kind == k) = front.head?.any (·.kind == k) := by
  cases front with
  | nil => simpa [hsign] using hk.symm
  | cons t front => rfl

theorem heeds_nextIs (k : Kind) : Heeds (nextIs k) := by
  intro sign front tail tail' _
  rw [nextIs, nextIs, head?_append_sign front sign tail tail']
  exact .ok (List.suffix_refl front)

theorem heeds_newlines : Heeds newlines := by
  intro sign front tail tail' hsign
  have hdrop (us : List Token) : (front ++ sign :: us).dropWhile (·.kind == .newline)
      = front.dropWhile (·.kind == .newline) ++ sign :: us := by
    rw [List.dropWhile_append]
    cases front.dropWhile (·.kind == .newline) with
    | nil => simp [hsign]
    | cons t ts => rfl
  rw [newlines, newlines, hdrop tail, hdrop tail']
  exact .ok (List.dropWhile_suffix _)

/-! ### Sequences of items -/

theorem heeds_moreItems {item : Parser α} (hitem : Heeds item) {close : Kind}
    (hclose : close ≠ .comment) (bound : Nat) : Heeds (moreItems item close bound) := by
  induction bound with
  | zero => exact heeds_needed _
  | succ bound ih =>
    refine heeds_bind (heeds_nextIs close) fun found => heeds_ite ?_ ?_
    · exact heeds_bind (heeds_token hclose) fun _ => heeds_pure []
    · refine heeds_bind (heeds_token (by decide)) fun _ => ?_
      refine heeds_bind hitem fun a => ?_
      exact heeds_bind ih fun as => heeds_pure (a :: as)

theorem heeds_items {item : Parser α} (hitem : Heeds item) {close : Kind}
    (hclose : close ≠ .comment) (bound : Nat) : Heeds (items item close bound) := by
  refine heeds_bind (heeds_nextIs close) fun found => heeds_ite ?_ ?_
  · exact heeds_bind (heeds_token hclose) fun _ => heeds_pure []
  · refine heeds_bind hitem fun a => ?_
    exact heeds_bind (heeds_moreItems hitem hclose bound) fun as => heeds_pure (a :: as)

/-! ### Expressions -/

section

variable {inner : Parser (Expr Token)}

theorem heeds_elements (hinner : Heeds inner) {close : Kind} (hclose : close ≠ .comment)
    (bound : Nat) : Heeds (elements inner close bound) := by
  refine heeds_bind heeds_newlines fun _ => heeds_items ?_ hclose bound
  refine heeds_bind heeds_newlines fun _ => heeds_bind hinner fun e => ?_
  exact heeds_bind heeds_newlines fun _ => heeds_pure e

theorem heeds_grouped (hinner : Heeds inner) : Heeds (grouped inner) := by
  refine heeds_bind heeds_newlines fun _ => heeds_bind hinner fun e => ?_
  refine heeds_bind heeds_newlines fun _ => ?_
  exact heeds_bind (heeds_token (by decide)) fun _ => heeds_pure e

/-- An operand: a comment sign starts none, makes no call of a name and is no number behind a
minus sign. -/
theorem heeds_operand (hinner : Heeds inner) (bound : Nat) : Heeds (operand inner bound) := by
  intro sign front tail tail' hsign
  have hrparen : Kind.rparen ≠ .comment := by decide
  have hrbrack : Kind.rbrack ≠ .comment := by decide
  cases front with
  | nil =>
    have hstart : startsOperand sign.kind = false := by rw [hsign]; rfl
    rw [List.nil_append, List.nil_append, operand_unexpected inner bound tail hstart,
      operand_unexpected inner bound tail' hstart]
    exact .error
  | cons t front =>
    rw [List.cons_append, List.cons_append]
    cases hstart : startsOperand t.kind with
    | false =>
      rw [operand_unexpected inner bound _ hstart, operand_unexpected inner bound _ hstart]
      exact .error
    | true =>
      simp only [startsOperand, Bool.or_eq_true, beq_iff_eq, or_assoc] at hstart
      rcases hstart with hk | hk | hk | hk | hk
      · rw [operand_number inner bound _ hk, operand_number inner bound _ hk]
        exact .ok (List.suffix_cons t front)
      · have hnext := head?_any_append_sign (show Kind.lparen ≠ .comment by decide) hsign front
        cases hp : front.head?.any (·.kind == .lparen) with
        | false =>
          rw [operand_name inner bound _ hk ((hnext tail).trans hp),
            operand_name inner bound _ hk ((hnext tail').trans hp)]
          exact .ok (List.suffix_cons t front)
        | true =>
          obtain ⟨p, rest, rfl, hq⟩ := exists_of_head?_any hp
          rw [List.cons_append, List.cons_append, operand_call inner bound _ hk hq,
            operand_call inner bound _ hk hq]
          have hcall := heeds_map (heeds_elements hinner hrparen bound) (Expr.call t.toIdent)
          exact (hcall sign rest tail tail' hsign).mono
            ((List.suffix_cons p rest).trans (List.suffix_cons t _))
      · have hnext := head?_any_append_sign (show Kind.number ≠ .comment by decide) hsign front
        cases hp : front.head?.any (·.kind == .number) with
        | false =>
          rw [operand_minus inner bound _ hk ((hnext tail).trans hp),
            operand_minus inner bound _ hk ((hnext tail').trans hp)]
          exact .error
        | true =>
          obtain ⟨p, rest, rfl, hq⟩ := exists_of_head?_any hp
          rw [List.cons_append, List.cons_append, operand_negative inner bound _ hk hq,
            operand_negative inner bound _ hk hq]
          exact .ok ((List.suffix_cons p rest).trans (List.suffix_cons t _))
      · rw [operand_group inner bound _ hk, operand_group inner bound _ hk]
        exact (heeds_grouped hinner sign front tail tail' hsign).mono (List.suffix_cons t front)
      · rw [operand_list inner bound _ hk, operand_list inner bound _ hk]
        have hlist := heeds_map (heeds_elements hinner hrbrack bound) (Expr.list t)
        exact (hlist sign front tail tail' hsign).mono (List.suffix_cons t front)

end

/-- Operators behind an expression: a comment sign is none. -/
theorem heeds_operations {above : Nat → Parser (Expr Token)} (habove : ∀ p, Heeds (above p))
    (least bound : Nat) (left : Expr Token) : Heeds (operations above least bound left) := by
  induction bound generalizing left with
  | zero => exact heeds_pure left
  | succ bound ih =>
    intro sign front tail tail' hsign
    by_cases hstop : StopsAt least (front ++ sign :: tail)
    · have hstop' : StopsAt least (front ++ sign :: tail') := by
        rwa [StopsAt, ← head?_append_sign front sign tail tail']
      rw [operations_stop above _ left hstop, operations_stop above _ left hstop']
      exact .ok (List.suffix_refl front)
    · obtain ⟨op, us, p, hus, hp, hleast⟩ := exists_of_not_stopsAt hstop
      cases front with
      | nil =>
        obtain ⟨rfl, -⟩ := List.cons.inj hus
        rw [hsign] at hp
        cases hp
      | cons t front =>
        obtain ⟨rfl, -⟩ := List.cons.inj hus
        rw [List.cons_append, List.cons_append, operations_step above bound left _ hp hleast,
          operations_step above bound left _ hp hleast]
        have hright := heeds_bind (habove (p + 1)) fun right => ih (.binary t t.text left right)
        exact (hright sign front tail tail' hsign).mono (List.suffix_cons t front)

/-- **An expression ends in front of a comment.** -/
theorem heeds_expression (bound least : Nat) : Heeds (expression bound least) := by
  induction bound generalizing least with
  | zero => exact heeds_unexpected
  | succ bound ih =>
    refine heeds_bind (heeds_operand (ih 0) bound) fun left => ?_
    exact heeds_operations ih least bound left

/-! ### Statements without a body -/

theorem heeds_wholeExpression (bound : Nat) : Heeds (wholeExpression bound) :=
  heeds_expression bound 0

theorem heeds_declaration (bound : Nat) : Heeds (declaration bound) := by
  refine heeds_bind (heeds_ident _) fun name => ?_
  refine heeds_bind (heeds_token (by decide)) fun eq => ?_
  exact heeds_bind (heeds_wholeExpression bound) fun value => heeds_pure _

/-- Reads `name(params)`. -/
def signature (bound : Nat) : Parser (Token × List Token) := do
  let name ← ident "function name"
  let _ ← token .lparen
  let params ← items (ident "parameter name") .rparen bound
  return (name, params)

theorem heeds_signature (bound : Nat) : Heeds (signature bound) := by
  refine heeds_bind (heeds_ident _) fun name => ?_
  refine heeds_bind (heeds_token (by decide)) fun _ => ?_
  exact heeds_bind (heeds_items (heeds_ident _) (by decide) bound) fun params => heeds_pure _

/-- Behind the name and the parameters of a function there is an equals sign. -/
theorem definition_eq (bound : Nat) :
    definition bound = (do
      let f ← signature bound
      let _ ← token .assign
      let body ← wholeExpression bound
      return .define f.1.toIdent (f.2.map Token.toIdent) body) := by
  simp only [definition, signature, bind_assoc, pure_bind]

theorem heeds_definition (bound : Nat) : Heeds (definition bound) := by
  rw [definition_eq]
  refine heeds_bind (heeds_signature bound) fun f => ?_
  refine heeds_bind (heeds_token (by decide)) fun _ => ?_
  exact heeds_bind (heeds_wholeExpression bound) fun body => heeds_pure _

theorem heeds_unpacking (bound : Nat) : Heeds (unpacking bound) := by
  refine heeds_bind (heeds_wholeExpression bound) fun names => ?_
  refine heeds_bind (heeds_token (by decide)) fun eq => ?_
  exact heeds_bind (heeds_wholeExpression bound) fun values => heeds_pure _

theorem heeds_printing (first : Token) (bound : Nat) : Heeds (printing first bound) :=
  heeds_map (heeds_wholeExpression bound) (Stmt.print first)

/-! ### Statements with a body -/

/-- Reads a counting loop behind its first word, up to the brace that opens its body. -/
def countHead (first : Token) (bound : Nat) : Parser (List (Stmt Token) → Stmt Token) := do
  let start ← wholeExpression bound
  let _ ← token .toWord
  let stop ← wholeExpression bound
  let _ ← token .asWord
  let var ← ident "loop variable"
  let step ← stepOf var bound
  newlines
  let _ ← token .lbrace
  return .count first start stop var.toIdent step

/-- Reads a loop over a list behind its first word, up to the brace that opens its body. -/
def listHead (first : Token) (bound : Nat) : Parser (List (Stmt Token) → Stmt Token) := do
  let var ← ident "loop variable"
  let _ ← token .inWord
  let source ← wholeExpression bound
  newlines
  let _ ← token .lbrace
  return .each first var.toIdent source

/-- Reads what stands behind the first token of a statement, up to the brace that opens its
body. -/
def opening (first : Token) (bound : Nat) : Parser (List (Stmt Token) → Stmt Token) :=
  match first.kind with
  | .fromWord => countHead first bound
  | .forWord => listHead first bound
  | .lbrace => pure (.block first)
  | _ => unexpected

/-- The kinds of token that start a statement with a body. -/
def opensBody (k : Kind) : Bool := k == .fromWord || k == .forWord || k == .lbrace

/-- A statement with a body is what opens it and then the body. -/
theorem statement_opening (bound : Nat) {t : Token} (ts : List Token)
    (h : opensBody t.kind = true) :
    statement (bound + 1) (t :: ts) = (do
      let make ← opening t bound
      let stmts ← bodyRest (statement bound) bound
      return some (make stmts)) ts := by
  simp only [opensBody, Bool.or_eq_true, beq_iff_eq, or_assoc] at h
  rcases h with hk | hk | hk
  · rw [statement_count bound ts hk]
    simp only [opening, hk, countHead, countLoop, body, bind_assoc, pure_bind, map_eq_pure_bind]
  · rw [statement_each bound ts hk]
    simp only [opening, hk, listHead, listLoop, body, bind_assoc, pure_bind, map_eq_pure_bind]
  · rw [statement_block bound ts hk]
    obtain ⟨k, text, place⟩ := t
    obtain rfl : k = .lbrace := hk
    rw [map_eq_pure_bind]
    rfl

theorem heeds_stepOf (var : Token) (bound : Nat) : Heeds (stepOf var bound) := by
  refine heeds_bind (heeds_nextIs _) fun found => heeds_ite ?_ ?_
  · refine heeds_bind (heeds_token (by decide)) fun _ => ?_
    exact heeds_bind (heeds_token (by decide)) fun _ => heeds_wholeExpression bound
  · exact heeds_pure _

/-- **The body of a statement is opened in front of a comment, or not at all.** -/
theorem heeds_opening (first : Token) (bound : Nat) : Heeds (opening first bound) := by
  rw [opening]
  split
  · refine heeds_bind (heeds_wholeExpression bound) fun start => ?_
    refine heeds_bind (heeds_token (by decide)) fun _ => ?_
    refine heeds_bind (heeds_wholeExpression bound) fun stop => ?_
    refine heeds_bind (heeds_token (by decide)) fun _ => ?_
    refine heeds_bind (heeds_ident _) fun var => ?_
    refine heeds_bind (heeds_stepOf var bound) fun step => ?_
    refine heeds_bind heeds_newlines fun _ => ?_
    exact heeds_bind (heeds_token (by decide)) fun _ => heeds_pure _
  · refine heeds_bind (heeds_ident _) fun var => ?_
    refine heeds_bind (heeds_token (by decide)) fun _ => ?_
    refine heeds_bind (heeds_wholeExpression bound) fun source => ?_
    refine heeds_bind heeds_newlines fun _ => ?_
    exact heeds_bind (heeds_token (by decide)) fun _ => heeds_pure _
  · exact heeds_pure _
  · exact heeds_unexpected

end Parser

end ListCalc
