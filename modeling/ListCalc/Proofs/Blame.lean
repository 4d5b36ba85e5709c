/-
Parsers keep to their input.

A parser that gives up names the token at which it did, unless the tokens ran out, and
one that succeeds marks what it has read with tokens.  All of these are tokens that
the parser was given, unchanged.  The one exception is the step of a loop that gives
none: it is marked with a token that is made up for it.  As a number, that step is the
same with any other mark.

`Local` says this of a parser, whatever property of tokens stands for being an input;
`local_expression` and `local_statement` carry it through all productions.

* `mem_of_program_error` — a complaint about a program names one of its tokens;
* `allMarked_of_program` — a program runs like one that is marked with its tokens.
-/
import ListCalc.Proofs.Marks.Origin
import ListCalc.Proofs.Stmt.Parser

namespace ListCalc

namespace Parser

variable {α β : Type} {P : Token → Prop} {Q : α → Prop} {R : β → Prop}

/-- The answer has no tokens but those with `P`: neither in the complaint nor among the tokens that
are left.  If there is a value, it has `Q`. -/
inductive Within (P : Token → Prop) (Q : α → Prop) : Except Complaint (α × List Token) → Prop where
  | ok {a : α} {rest : List Token} (ha : Q a) (hrest : ∀ t ∈ rest, P t) : Within P Q (.ok (a, rest))
  | error {c : Complaint} (h : ∀ t ∈ c.token?, P t) : Within P Q (.error c)

/-- All answers of the parser to tokens with `P` are about such tokens, and its values have `Q`. -/
def Local (P : Token → Prop) (Q : α → Prop) (p : Parser α) : Prop :=
  ∀ ts, (∀ t ∈ ts, P t) → Within P Q (p ts)

theorem Local.mono {p : Parser α} (hp : Local P Q p) {Q' : α → Prop} (h : ∀ a, Q a → Q' a) :
    Local P Q' p := by
  intro ts hts
  have hanswer := hp ts hts
  generalize p ts = x at hanswer ⊢
  cases hanswer with
  | ok ha hrest => exact .ok (h _ ha) hrest
  | error hc => exact .error hc

/-! ### Sequences -/

theorem local_pure {a : α} (ha : Q a) : Local P Q (pure a) :=
  fun _ hts => .ok ha hts

theorem local_bind {p : Parser α} {r : α → Parser β} (hp : Local P Q p)
    (hr : ∀ a, Q a → Local P R (r a)) : Local P R (p >>= r) := by
  intro ts hts
  have hfirst := hp ts hts
  rw [bind_apply]
  generalize p ts = x at hfirst
  cases hfirst with
  | @ok a rest ha hrest => exact hr a ha rest hrest
  | error hc => exact .error hc

theorem local_map {p : Parser α} (hp : Local P Q p) {f : α → β} (hf : ∀ a, Q a → R (f a)) :
    Local P R (f <$> p) := by
  rw [map_eq_pure_bind]
  exact local_bind hp fun a ha => local_pure (hf a ha)

theorem local_ite {b : Bool} {p q : Parser α} (hp : Local P Q p) (hq : Local P Q q) :
    Local P Q (if b then p else q) := by
  by_cases hb : b = true
  · rw [if_pos hb]
    exact hp
  · rw [if_neg hb]
    exact hq

/-! ### Single tokens -/

/-- A complaint about the next token, or about none if there is no next token. -/
theorem within_of_head? {ts : List Token} (hts : ∀ t ∈ ts, P t) {kind : ParseError.Kind}
    {what : String} : Within P Q (.error ⟨kind, ts.head?, what⟩) := by
  refine .error ?_
  intro t ht
  exact hts t (List.mem_of_mem_head? ht)

theorem local_needed (what : String) : Local P Q (needed what : Parser α) := by
  intro ts hts
  cases ts <;> exact within_of_head? hts

theorem local_unexpected : Local P Q (unexpected : Parser α) := by
  intro ts hts
  cases ts <;> exact within_of_head? hts

theorem local_token (k : Kind) : Local P P (token k) := by
  intro ts hts
  cases ts with
  | nil => exact local_needed _ [] hts
  | cons t ts =>
    rw [token]
    by_cases hk : t.kind = k
    · rw [if_pos hk]
      obtain ⟨ht, hts⟩ := List.forall_mem_cons.mp hts
      exact .ok ht hts
    · rw [if_neg hk]
      exact local_needed _ (t :: ts) hts

theorem local_ident (what : String) : Local P P (ident what) := by
  intro ts hts
  cases ts with
  | nil => exact within_of_head? hts
  | cons t ts =>
    rw [ident]
    by_cases hk : t.kind = .ident
    · rw [if_pos hk]
      obtain ⟨ht, hts⟩ := List.forall_mem_cons.mp hts
      exact .ok ht hts
    · rw [if_neg hk]
      exact within_of_head? hts

theorem local_nextIs (k : Kind) : Local P (fun _ => True) (nextIs k) :=
  fun _ hts => .ok trivial hts

theorem local_newlines : Local P (fun _ => True) newlines :=
  fun _ hts => .ok trivial fun t ht => hts t ((List.dropWhile_suffix _).mem ht)

/-! ### Sequences of items -/

theorem local_moreItems {item : Parser α} (hitem : Local P Q item) (close : Kind) (bound : Nat) :
    Local P (fun as => ∀ a ∈ as, Q a) (moreItems item close bound) := by
  induction bound with
  | zero => exact local_needed _
  | succ bound ih =>
    refine local_bind (local_nextIs close) fun found _ => local_ite ?_ ?_
    · exact local_bind (local_token close) fun _ _ => local_pure (List.forall_mem_nil _)
    · refine local_bind (local_token .comma) fun _ _ => local_bind hitem fun a ha => ?_
      exact local_bind ih fun as has => local_pure (List.forall_mem_cons.mpr ⟨ha, has⟩)

theorem local_items {item : Parser α} (hitem : Local P Q item) (close : Kind) (bound : Nat) :
    Local P (fun as => ∀ a ∈ as, Q a) (items item close bound) := by
  refine local_bind (local_nextIs close) fun found _ => local_ite ?_ ?_
  · exact local_bind (local_token close) fun _ _ => local_pure (List.forall_mem_nil _)
  · refine local_bind hitem fun a ha => local_bind (local_moreItems hitem close bound) ?_
    exact fun as has => local_pure (List.forall_mem_cons.mpr ⟨ha, has⟩)

/-! ### Expressions -/

variable {inner : Parser (Expr Token)}

theorem local_elements (hinner : Local P (Expr.Marked P) inner) (close : Kind) (bound : Nat) :
    Local P (fun es => ∀ e ∈ es, e.Marked P) (elements inner close bound) := by
  refine local_bind local_newlines fun _ _ => local_items ?_ close bound
  refine local_bind local_newlines fun _ _ => local_bind hinner fun e he => ?_
  exact local_bind local_newlines fun _ _ => local_pure he

theorem local_grouped (hinner : Local P (Expr.Marked P) inner) :
    Local P (Expr.Marked P) (grouped inner) := by
  refine local_bind local_newlines fun _ _ => local_bind hinner fun e he => ?_
  refine local_bind local_newlines fun _ _ => ?_
  exact local_bind (local_token .rparen) fun _ _ => local_pure he

theorem local_operand (hinner : Local P (Expr.Marked P) inner) (bound : Nat) :
    Local P (Expr.Marked P) (operand inner bound) := by
  intro ts hts
  cases ts with
  | nil => exact local_unexpected [] hts
  | cons t ts =>
    obtain ⟨ht, htail⟩ := List.forall_mem_cons.mp hts
    by_cases hstart : startsOperand t.kind = true
    · simp only [startsOperand, Bool.or_eq_true, beq_iff_eq, or_assoc] at hstart
      rcases hstart with hk | hk | hk | hk | hk
      · rw [operand_number inner bound ts hk]
        exact .ok (Expr.marked_number ht _) htail
      · cases hp : ts.head?.any (·.kind == .lparen) with
        | false =>
          rw [operand_name inner bound ts hk hp]
          exact .ok (Expr.marked_name ht) htail
        | true =>
          obtain ⟨p, rest, rfl, hq⟩ := exists_of_head?_any hp
          rw [operand_call inner bound rest hk hq]
          have hcall := local_map (local_elements hinner .rparen bound)
            (f := Expr.call t.toIdent) fun _ => Expr.marked_call ht
          exact hcall rest (List.forall_mem_cons.mp htail).2
      · cases hp : ts.head?.any (·.kind == .number) with
        | false =>
          rw [operand_minus inner bound ts hk hp]
          exact within_of_head? hts
        | true =>
          obtain ⟨p, rest, rfl, hq⟩ := exists_of_head?_any hp
          rw [operand_negative inner bound rest hk hq]
          exact .ok (Expr.marked_negative ht _) (List.forall_mem_cons.mp htail).2
      · rw [operand_group inner bound ts hk]
        exact local_grouped hinner ts htail
      · rw [operand_list inner bound ts hk]
        have hlist := local_map (local_elements hinner .rbrack bound) (f := Expr.list t)
          fun _ => Expr.marked_list ht
        exact hlist ts htail
    · rw [operand_unexpected inner bound ts (Bool.eq_false_iff.mpr hstart)]
      exact local_unexpected (t :: ts) hts

theorem local_operations {above : Nat → Parser (Expr Token)}
    (habove : ∀ p, Local P (Expr.Marked P) (above p)) (least bound : Nat) {left : Expr Token}
    (hleft : left.Marked P) : Local P (Expr.Marked P) (operations above least bound left) := by
  induction bound generalizing left with
  | zero => exact local_pure hleft
  | succ bound ih =>
    intro ts hts
    by_cases hstop : StopsAt least ts
    · rw [operations_stop above (bound + 1) left hstop]
      exact .ok hleft hts
    · obtain ⟨op, rest, p, rfl, hp, hleast⟩ := exists_of_not_stopsAt hstop
      obtain ⟨hop, hrest⟩ := List.forall_mem_cons.mp hts
      rw [operations_step above bound left rest hp hleast]
      exact local_bind (habove (p + 1))
        (fun right hright => ih (Expr.marked_binary hop op.text hleft hright)) rest hrest

theorem local_expression (bound least : Nat) :
    Local P (Expr.Marked P) (expression bound least) := by
  induction bound generalizing least with
  | zero => exact local_unexpected
  | succ bound ih =>
    exact local_bind (local_operand (ih 0) bound) fun left hleft =>
      local_operations ih least bound hleft

/-! ### Statements -/

variable {stmt : Parser (Option (Stmt Token))} (bound : Nat)

theorem local_declaration : Local P (Stmt.Marked P) (declaration bound) := by
  refine local_bind (local_ident _) fun name hname => ?_
  refine local_bind (local_token .assign) fun eq heq => ?_
  refine local_bind (local_expression bound 0) fun value hvalue => ?_
  exact local_pure (Stmt.marked_declare heq hname hvalue)

theorem local_definition : Local P (Stmt.Marked P) (definition bound) := by
  refine local_bind (local_ident _) fun name hname => local_bind (local_token .lparen) fun _ _ => ?_
  refine local_bind (local_items (local_ident _) .rparen bound) fun params hparams => ?_
  refine local_bind (local_token .assign) fun _ _ => ?_
  refine local_bind (local_expression bound 0) fun body hbody => local_pure ?_
  exact Stmt.marked_define hname (List.forall_mem_map.mpr hparams) hbody

theorem local_unpacking : Local P (Stmt.Marked P) (unpacking bound) := by
  refine local_bind (local_expression bound 0) fun names hnames => ?_
  refine local_bind (local_token .assign) fun eq heq => ?_
  refine local_bind (local_expression bound 0) fun values hvalues => ?_
  exact local_pure (Stmt.marked_unpack heq hnames hvalues)

theorem local_printing {first : Token} (hfirst : P first) :
    Local P (Stmt.Marked P) (printing first bound) :=
  local_map (local_expression bound 0) fun _ => Stmt.marked_print hfirst

/-- Statements may be missing, which makes no difference when they run. -/
theorem allMarked_toList_append {s : Option (Stmt Token)} (hs : ∀ s' ∈ s, s'.Marked P)
    {ss : List (Stmt Token)} (hss : Stmt.AllMarked P ss) : Stmt.AllMarked P (s.toList ++ ss) := by
  cases s with
  | none => exact hss
  | some s => exact Stmt.allMarked_cons (hs s rfl) hss

theorem local_bodyRest (hstmt : Local P (fun s => ∀ s' ∈ s, s'.Marked P) stmt) :
    Local P (Stmt.AllMarked P) (bodyRest stmt bound) := by
  induction bound with
  | zero => exact local_needed _
  | succ bound ih =>
    intro ts hts
    cases ts with
    | nil => exact local_needed _ [] hts
    | cons t ts =>
      by_cases ht : t.kind = .rbrace
      · rw [bodyRest_rbrace stmt bound ht]
        exact .ok Stmt.allMarked_nil (List.forall_mem_cons.mp hts).2
      · rw [bodyRest_step bound ht]
        exact local_bind hstmt (fun s hs => local_bind ih fun rest hrest =>
          local_pure (allMarked_toList_append hs hrest)) (t :: ts) hts

theorem local_body (hstmt : Local P (fun s => ∀ s' ∈ s, s'.Marked P) stmt) :
    Local P (Stmt.AllMarked P) (body stmt bound) := by
  refine local_bind local_newlines fun _ _ => local_bind (local_token .lbrace) fun _ _ => ?_
  exact local_bodyRest bound hstmt

/-- The step of a loop that gives none has a mark of its own, but it can always be read. -/
theorem local_stepOf {var : Token} (hvar : P var) :
    Local P (Expr.MarkedNumber P) (stepOf var bound) := by
  have hunit : (unitStep var).MarkedNumber P :=
    Expr.markedNumber_of_read (by decide +kernel) hvar _
  refine local_bind (local_nextIs .withWord) fun found _ => local_ite ?_ (local_pure hunit)
  refine local_bind (local_token .withWord) fun _ _ => ?_
  refine local_bind (local_token .stepWord) fun _ _ => ?_
  exact (local_expression bound 0).mono fun _ => Expr.Marked.markedNumber

theorem local_countLoop (hstmt : Local P (fun s => ∀ s' ∈ s, s'.Marked P) stmt) {first : Token}
    (hfirst : P first) : Local P (Stmt.Marked P) (countLoop first stmt bound) := by
  refine local_bind (local_expression bound 0) fun start hstart => ?_
  refine local_bind (local_token .toWord) fun _ _ => ?_
  refine local_bind (local_expression bound 0) fun stop hstop => ?_
  refine local_bind (local_token .asWord) fun _ _ => local_bind (local_ident _) fun var hvar => ?_
  refine local_bind (local_stepOf bound hvar) fun step hstep => ?_
  refine local_bind (local_body bound hstmt) fun stmts hstmts => ?_
  exact local_pure (Stmt.marked_count hfirst hstart hstop hvar hstep hstmts)

theorem local_listLoop (hstmt : Local P (fun s => ∀ s' ∈ s, s'.Marked P) stmt) {first : Token}
    (hfirst : P first) : Local P (Stmt.Marked P) (listLoop first stmt bound) := by
  refine local_bind (local_ident _) fun var hvar => local_bind (local_token .inWord) fun _ _ => ?_
  refine local_bind (local_expression bound 0) fun source hsource => ?_
  refine local_bind (local_body bound hstmt) fun stmts hstmts => ?_
  exact local_pure (Stmt.marked_each hfirst hvar hsource hstmts)

theorem marked_of_mem_some {s : Stmt Token} (hs : s.Marked P) : ∀ s' ∈ some s, s'.Marked P := by
  intro s' hs'
  obtain rfl := Option.some.inj hs'
  exact hs

theorem local_some {p : Parser (Stmt Token)} (hp : Local P (Stmt.Marked P) p) :
    Local P (fun s => ∀ s' ∈ s, s'.Marked P) (some <$> p) :=
  local_map hp fun _ => marked_of_mem_some

/-- A statement is about its tokens, whichever of its forms they start. -/
theorem local_statement : Local P (fun s => ∀ s' ∈ s, s'.Marked P) (statement bound) := by
  induction bound with
  | zero => exact local_unexpected
  | succ b ih =>
    intro ts hts
    cases ts with
    | nil => exact local_unexpected [] hts
    | cons t ts =>
      obtain ⟨ht, htail⟩ := List.forall_mem_cons.mp hts
      have hprint := local_some (local_printing (b + 1) ht) (t :: ts) hts
      by_cases hstart : startsStatement t.kind = true
      · simp only [startsStatement, Bool.or_eq_true, beq_iff_eq, or_assoc] at hstart
        rcases hstart with hk | hk | hk | hk | hk | hk | hk | hk | hk
        · rw [statement_newline b ts hk]
          exact .ok (by simp) htail
        · rw [statement_comment b ts hk]
          exact .ok (by simp) fun u hu => htail u ((List.dropWhile_suffix _).mem hu)
        · cases ha : ts.head?.any (·.kind == .assign) with
          | true =>
            rw [statement_declaration b ts hk ha]
            exact local_some (local_declaration (b + 1)) (t :: ts) hts
          | false =>
            cases hp : ts.head?.any (·.kind == .lparen) && assignsOnLine ts with
            | true =>
              rw [statement_definition b ts hk ha hp]
              exact local_some (local_definition (b + 1)) (t :: ts) hts
            | false =>
              rw [statement_print_name b ts hk ha hp]
              exact hprint
        · rw [statement_print b ts (.inl hk)]
          exact hprint
        · rw [statement_print b ts (.inr hk)]
          exact hprint
        · cases ha : assignsOnLine ts with
          | true =>
            rw [statement_unpacking b ts hk ha]
            exact local_some (local_unpacking (b + 1)) (t :: ts) hts
          | false =>
            rw [statement_print_list b ts hk ha]
            exact hprint
        · rw [statement_count b ts hk]
          exact local_some (local_countLoop b ih ht) ts htail
        · rw [statement_each b ts hk]
          exact local_some (local_listLoop b ih ht) ts htail
        · rw [statement_block b ts hk]
          exact local_map (local_body b ih)
            (fun _ hbody => marked_of_mem_some (Stmt.marked_block ht hbody)) (t :: ts) hts
      · rw [statement_unexpected b ts (Bool.eq_false_iff.mpr hstart)]
        exact local_unexpected (t :: ts) hts

theorem local_statements : Local P (Stmt.AllMarked P) (statements bound) := by
  induction bound with
  | zero => exact local_pure Stmt.allMarked_nil
  | succ b ih =>
    intro ts hts
    cases ts with
    | nil => exact .ok Stmt.allMarked_nil hts
    | cons t ts =>
      rw [statements_cons]
      exact local_bind (local_statement (b + 1)) (fun s hs => local_bind ih fun rest hrest =>
        local_pure (allMarked_toList_append hs hrest)) (t :: ts) hts

/-! ### Programs -/

/-- A complaint about a program names one of its tokens, or none. -/
theorem mem_of_program_error {ts : List Token} {c : Complaint} (h : program ts = .error c)
    {t : Token} (ht : c.token? = some t) : t ∈ ts := by
  have hlocal := local_statements (P := (· ∈ ts)) ts.length ts fun _ hu => hu
  rw [program] at h
  generalize statements ts.length ts = x at h hlocal
  cases hlocal with
  | ok _ _ => cases h
  | error hc =>
    obtain rfl := Except.error.inj h
    exact hc t ht

/-- A program runs like one that is marked with its tokens. -/
theorem allMarked_of_program {ts : List Token} {p : Program Token} (h : program ts = .ok p) :
    Stmt.AllMarked (· ∈ ts) p := by
  have hlocal := local_statements (P := (· ∈ ts)) ts.length ts fun _ hu => hu
  rw [program] at h
  generalize statements ts.length ts = x at h hlocal
  cases hlocal with
  | ok hp _ =>
    obtain rfl := Except.ok.inj h
    exact hp
  | error _ => cases h

end Parser

end ListCalc
