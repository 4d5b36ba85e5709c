/-
The parser builds legible syntax.

`Yields Q p` says that from proper tokens the parser `p` reads values with `Q` and
leaves proper tokens.  `yields_expression` and `yields_statement` carry this
through all productions, so a program that is parsed is legible
(`allLegible_of_program`).
-/
import ListCalc.Proofs.Spelling
import ListCalc.Proofs.Stmt.Parser

namespace ListCalc

namespace Parser

variable {α β : Type} {Q : α → Prop} {R : β → Prop}

theorem bind_eq_ok_iff {p : Parser α} {r : α → Parser β} {ts rest : List Token} {b : β} :
    (p >>= r) ts = .ok (b, rest) ↔ ∃ a mid, p ts = .ok (a, mid) ∧ r a mid = .ok (b, rest) := by
  rw [bind_apply]
  rcases p ts with c | ⟨a, mid⟩
  · constructor
    · intro hok
      cases hok
    · rintro ⟨a, mid, hok, -⟩
      cases hok
  · refine ⟨fun hok => ⟨a, mid, rfl, hok⟩, ?_⟩
    rintro ⟨a', mid', hp, hok⟩
    obtain ⟨rfl, rfl⟩ := Prod.mk.inj (Except.ok.inj hp)
    exact hok

/-- From proper tokens, what the parser reads has `Q` and what it leaves is proper. -/
def Yields (Q : α → Prop) (p : Parser α) : Prop :=
  ∀ ts, (∀ t ∈ ts, t.Proper) → ∀ a rest, p ts = .ok (a, rest) → Q a ∧ ∀ t ∈ rest, t.Proper

/-! ### Sequences -/

theorem yields_pure {a : α} (h : Q a) : Yields Q (pure a) := by
  intro ts hts a' rest hok
  obtain ⟨rfl, rfl⟩ := Prod.mk.inj (Except.ok.inj hok)
  exact ⟨h, hts⟩

theorem yields_bind {p : Parser α} {r : α → Parser β} (hp : Yields Q p)
    (hr : ∀ a, Q a → Yields R (r a)) : Yields R (p >>= r) := by
  intro ts hts b rest hok
  obtain ⟨a, mid, ha, hb⟩ := bind_eq_ok_iff.mp hok
  obtain ⟨hq, hmid⟩ := hp ts hts a mid ha
  exact hr a hq mid hmid b rest hb

theorem yields_map {p : Parser α} {f : α → β} (hp : Yields Q p) (hf : ∀ a, Q a → R (f a)) :
    Yields R (f <$> p) := by
  rw [map_eq_pure_bind]
  exact yields_bind hp fun a ha => yields_pure (hf a ha)

theorem yields_ite {b : Bool} {p q : Parser α} (hp : Yields Q p) (hq : Yields Q q) :
    Yields Q (if b then p else q) := by
  cases b
  · exact hq
  · exact hp

/-! ### Single tokens -/

theorem yields_needed (what : String) : Yields Q (needed what) := by
  intro ts _ a rest hok
  cases ts <;> cases hok

theorem yields_unexpected : Yields Q unexpected := by
  intro ts _ a rest hok
  cases ts <;> cases hok

theorem yields_token (k : Kind) : Yields (fun t => t.Proper ∧ t.kind = k) (token k) := by
  intro ts hts a rest hok
  cases ts with
  | nil => cases hok
  | cons t ts =>
    rw [token] at hok
    split at hok
    · next hk =>
      obtain ⟨rfl, rfl⟩ := Prod.mk.inj (Except.ok.inj hok)
      exact ⟨⟨hts t List.mem_cons_self, hk⟩, fun u hu => hts u (List.mem_cons_of_mem t hu)⟩
    · cases hok

theorem yields_ident (what : String) : Yields (fun t => IsName t.text) (ident what) := by
  intro ts hts a rest hok
  cases ts with
  | nil => cases hok
  | cons t ts =>
    rw [ident] at hok
    split at hok
    · next hk =>
      obtain ⟨rfl, rfl⟩ := Prod.mk.inj (Except.ok.inj hok)
      exact ⟨(hts t List.mem_cons_self).name hk, fun u hu => hts u (List.mem_cons_of_mem t hu)⟩
    · cases hok

theorem yields_nextIs (k : Kind) : Yields (fun _ => True) (nextIs k) := by
  intro ts hts a rest hok
  obtain ⟨-, rfl⟩ := Prod.mk.inj (Except.ok.inj hok)
  exact ⟨trivial, hts⟩

theorem yields_newlines : Yields (fun _ => True) newlines := by
  intro ts hts a rest hok
  obtain ⟨-, rfl⟩ := Prod.mk.inj (Except.ok.inj hok)
  exact ⟨trivial, fun t ht => hts t ((List.dropWhile_suffix _).mem ht)⟩

/-! ### Sequences of items -/

theorem yields_moreItems {item : Parser α} (hitem : Yields Q item) (close : Kind) (bound : Nat) :
    Yields (fun as => ∀ a ∈ as, Q a) (moreItems item close bound) := by
  induction bound with
  | zero => exact yields_needed _
  | succ bound ih =>
    refine yields_bind (yields_nextIs close) fun found _ => ?_
    refine yields_ite ?_ ?_
    · exact yields_bind (yields_token close) fun _ _ => yields_pure (by simp)
    · refine yields_bind (yields_token .comma) fun _ _ => ?_
      refine yields_bind hitem fun a ha => ?_
      exact yields_bind ih fun as has => yields_pure (List.forall_mem_cons.mpr ⟨ha, has⟩)

theorem yields_items {item : Parser α} (hitem : Yields Q item) (close : Kind) (bound : Nat) :
    Yields (fun as => ∀ a ∈ as, Q a) (items item close bound) := by
  refine yields_bind (yields_nextIs close) fun found _ => ?_
  refine yields_ite ?_ ?_
  · exact yields_bind (yields_token close) fun _ _ => yields_pure (by simp)
  · refine yields_bind hitem fun a ha => ?_
    exact yields_bind (yields_moreItems hitem close bound) fun as has =>
      yields_pure (List.forall_mem_cons.mpr ⟨ha, has⟩)

/-! ### Expressions -/

variable {inner : Parser (Expr Token)}

theorem yields_elements (hinner : Yields Expr.Legible inner) (close : Kind) (bound : Nat) :
    Yields Expr.AllLegible (elements inner close bound) := by
  refine yields_bind yields_newlines fun _ _ => ?_
  have hitem : Yields Expr.Legible (do newlines; let e ← inner; newlines; return e) :=
    yields_bind yields_newlines fun _ _ => yields_bind hinner fun e he =>
      yields_bind yields_newlines fun _ _ => yields_pure he
  intro ts hts es rest hok
  obtain ⟨hes, hrest⟩ := yields_items hitem close bound ts hts es rest hok
  exact ⟨Expr.allLegible_iff.mpr hes, hrest⟩

theorem yields_grouped (hinner : Yields Expr.Legible inner) :
    Yields Expr.Legible (grouped inner) :=
  yields_bind yields_newlines fun _ _ => yields_bind hinner fun _ he =>
    yields_bind yields_newlines fun _ _ => yields_bind (yields_token .rparen) fun _ _ =>
      yields_pure he

theorem yields_operand (hinner : Yields Expr.Legible inner) (bound : Nat) :
    Yields Expr.Legible (operand inner bound) := by
  intro ts hts e rest hok
  cases ts with
  | nil => cases hok
  | cons t ts =>
    have ht := hts t List.mem_cons_self
    have hts' : ∀ u ∈ ts, u.Proper := fun u hu => hts u (List.mem_cons_of_mem t hu)
    cases hstart : startsOperand t.kind with
    | false =>
      rw [operand_unexpected inner bound ts hstart] at hok
      cases hok
    | true =>
      simp only [startsOperand, Bool.or_eq_true, beq_iff_eq, or_assoc] at hstart
      rcases hstart with hk | hk | hk | hk | hk
      · rw [operand_number inner bound ts hk] at hok
        obtain ⟨rfl, rfl⟩ := Prod.mk.inj (Except.ok.inj hok)
        exact ⟨ht.number hk, hts'⟩
      · cases hp : ts.head?.any (·.kind == .lparen) with
        | false =>
          rw [operand_name inner bound ts hk hp] at hok
          obtain ⟨rfl, rfl⟩ := Prod.mk.inj (Except.ok.inj hok)
          exact ⟨ht.name hk, hts'⟩
        | true =>
          obtain ⟨p, us, rfl, hq⟩ := exists_of_head?_any hp
          rw [operand_call inner bound us hk hq] at hok
          have hcall : Yields Expr.Legible (Expr.call t.toIdent <$> elements inner .rparen bound) :=
            yields_map (yields_elements hinner .rparen bound) fun es hes => ⟨ht.name hk, hes⟩
          exact hcall us (fun u hu => hts' u (List.mem_cons_of_mem p hu)) e rest hok
      · cases hp : ts.head?.any (·.kind == .number) with
        | false =>
          rw [operand_minus inner bound ts hk hp] at hok
          cases hok
        | true =>
          obtain ⟨p, us, rfl, hq⟩ := exists_of_head?_any hp
          rw [operand_negative inner bound us hk hq] at hok
          obtain ⟨rfl, rfl⟩ := Prod.mk.inj (Except.ok.inj hok)
          exact ⟨(hts' p List.mem_cons_self).number hq,
            fun u hu => hts' u (List.mem_cons_of_mem p hu)⟩
      · rw [operand_group inner bound ts hk] at hok
        exact yields_grouped hinner ts hts' e rest hok
      · rw [operand_list inner bound ts hk] at hok
        have hlist : Yields Expr.Legible (Expr.list t <$> elements inner .rbrack bound) :=
          yields_map (yields_elements hinner .rbrack bound) fun es hes => hes
        exact hlist ts hts' e rest hok

theorem yields_operations {above : Nat → Parser (Expr Token)}
    (habove : ∀ p, Yields Expr.Legible (above p)) (least bound : Nat) {left : Expr Token}
    (hleft : left.Legible) : Yields Expr.Legible (operations above least bound left) := by
  induction bound generalizing left with
  | zero => exact yields_pure hleft
  | succ bound ih =>
    intro ts hts e rest hok
    by_cases hstop : StopsAt least ts
    · rw [operations_stop above (bound + 1) left hstop] at hok
      obtain ⟨rfl, rfl⟩ := Prod.mk.inj (Except.ok.inj hok)
      exact ⟨hleft, hts⟩
    · obtain ⟨op, us, p, rfl, hp, hleast⟩ := exists_of_not_stopsAt hstop
      rw [operations_step above bound left us hp hleast] at hok
      -- The token binds, so it is an operator.
      have hop := (hts op List.mem_cons_self).operator p hp
      have hstep : Yields Expr.Legible (do
          let right ← above (p + 1)
          operations above least bound (.binary op op.text left right)) :=
        yields_bind (habove (p + 1)) fun right hright =>
          ih (show (Expr.binary op op.text left right).Legible from ⟨hop, hleft, hright⟩)
      exact hstep us (fun u hu => hts u (List.mem_cons_of_mem op hu)) e rest hok

/-- Expressions that are parsed are legible. -/
theorem yields_expression (bound least : Nat) : Yields Expr.Legible (expression bound least) := by
  induction bound generalizing least with
  | zero => exact yields_unexpected
  | succ bound ih =>
    exact yields_bind (yields_operand (ih 0) bound) fun left hleft =>
      yields_operations ih least bound hleft

/-- Operators only ever make an expression larger. -/
theorem operations_shape {above : Nat → Parser (Expr Token)} {least bound : Nat}
    {left e : Expr Token} {ts rest : List Token}
    (hok : operations above least bound left ts = .ok (e, rest)) :
    e = left ∨ e.isBinary = true := by
  induction bound generalizing left ts with
  | zero =>
    obtain ⟨rfl, -⟩ := Prod.mk.inj (Except.ok.inj hok)
    exact .inl rfl
  | succ bound ih =>
    by_cases hstop : StopsAt least ts
    · rw [operations_stop above (bound + 1) left hstop] at hok
      obtain ⟨rfl, -⟩ := Prod.mk.inj (Except.ok.inj hok)
      exact .inl rfl
    · obtain ⟨op, us, p, rfl, hp, hleast⟩ := exists_of_not_stopsAt hstop
      rw [operations_step above bound left us hp hleast] at hok
      obtain ⟨right, mid, -, hok'⟩ := bind_eq_ok_iff.mp hok
      -- What is read on from is already an operator with its operands.
      rcases ih hok' with rfl | hbinary
      · exact .inr rfl
      · exact .inr hbinary

/-- What starts with a bracket is a list, or an operator behind a list. -/
theorem expression_shape {bound least : Nat} {t : Token} (ht : t.kind = .lbrack)
    {ts rest : List Token} {e : Expr Token}
    (hok : expression bound least (t :: ts) = .ok (e, rest)) :
    e.isList = true ∨ e.isBinary = true := by
  cases bound with
  | zero => cases hok
  | succ bound =>
    obtain ⟨left, mid, hleft, hok'⟩ := bind_eq_ok_iff.mp hok
    rw [operand_list _ _ _ ht, map_eq_pure_bind] at hleft
    obtain ⟨es, mid', -, hpure⟩ := bind_eq_ok_iff.mp hleft
    obtain ⟨rfl, rfl⟩ := Prod.mk.inj (Except.ok.inj hpure)
    rcases operations_shape hok' with rfl | hbinary
    · exact .inl rfl
    · exact .inr hbinary

/-! ### Statements -/

variable {stmt : Parser (Option (Stmt Token))} (bound : Nat)

theorem yields_declaration : Yields Stmt.Legible (declaration bound) :=
  yields_bind (yields_ident _) fun _ hname => yields_bind (yields_token .assign) fun _ _ =>
    yields_bind (yields_expression bound 0) fun _ hvalue => yields_pure ⟨hname, hvalue⟩

theorem yields_definition : Yields Stmt.Legible (definition bound) := by
  refine yields_bind (yields_ident _) fun name hname => ?_
  refine yields_bind (yields_token .lparen) fun _ _ => ?_
  refine yields_bind (yields_items (yields_ident _) .rparen bound) fun params hparams => ?_
  refine yields_bind (yields_token .assign) fun _ _ => ?_
  refine yields_bind (yields_expression bound 0) fun body hbody => yields_pure ?_
  refine ⟨hname, fun p hp => ?_, hbody⟩
  obtain ⟨t, ht, rfl⟩ := List.mem_map.mp hp
  exact hparams t ht

theorem yields_printing (first : Token) : Yields Stmt.Legible (printing first bound) :=
  yields_map (yields_expression bound 0) fun _ he => he

/-- One statement and those behind it. -/
theorem yields_step {more : Parser (List (Stmt Token))}
    (hstmt : Yields (fun s => ∀ x ∈ s, Stmt.Legible x) stmt) (hmore : Yields Stmt.AllLegible more) :
    Yields Stmt.AllLegible (do
      let s ← stmt
      let rest ← more
      return s.toList ++ rest) := by
  refine yields_bind hstmt fun s hs => yields_bind hmore fun ss hss => yields_pure ?_
  rw [Stmt.allLegible_iff] at hss ⊢
  intro x hx
  rcases List.mem_append.mp hx with hx | hx
  · exact hs x (Option.mem_toList.mp hx)
  · exact hss x hx

theorem yields_bodyRest (hstmt : Yields (fun s => ∀ x ∈ s, Stmt.Legible x) stmt) :
    Yields Stmt.AllLegible (bodyRest stmt bound) := by
  induction bound with
  | zero => exact yields_needed _
  | succ bound ih =>
    intro ts hts ss rest hok
    cases ts with
    | nil => cases hok
    | cons t ts =>
      rw [bodyRest] at hok
      dsimp only at hok
      split at hok
      · obtain ⟨rfl, rfl⟩ := Prod.mk.inj (Except.ok.inj hok)
        exact ⟨trivial, fun u hu => hts u (List.mem_cons_of_mem t hu)⟩
      · exact yields_step hstmt ih (t :: ts) hts ss rest hok

theorem yields_body (hstmt : Yields (fun s => ∀ x ∈ s, Stmt.Legible x) stmt) :
    Yields Stmt.AllLegible (body stmt bound) :=
  yields_bind yields_newlines fun _ _ => yields_bind (yields_token .lbrace) fun _ _ =>
    yields_bodyRest bound hstmt

theorem isNumeral_unitStep : IsNumeral "1.0" :=
  ⟨['1'], ['0'], rfl, List.cons_ne_nil _ _, List.cons_ne_nil _ _,
    List.forall_mem_singleton.mpr rfl, isDigit_of_mem_zero⟩

theorem yields_stepOf (var : Token) : Yields Expr.Legible (stepOf var bound) := by
  refine yields_bind (yields_nextIs .withWord) fun found _ => ?_
  refine yields_ite ?_ ?_
  -- A step that is not written is `1.0`.
  · exact yields_bind (yields_token .withWord) fun _ _ =>
      yields_bind (yields_token .stepWord) fun _ _ => yields_expression bound 0
  · exact yields_pure isNumeral_unitStep

theorem yields_countLoop (hstmt : Yields (fun s => ∀ x ∈ s, Stmt.Legible x) stmt)
    (first : Token) : Yields Stmt.Legible (countLoop first stmt bound) := by
  refine yields_bind (yields_expression bound 0) fun start hstart => ?_
  refine yields_bind (yields_token .toWord) fun _ _ => ?_
  refine yields_bind (yields_expression bound 0) fun stop hstop => ?_
  refine yields_bind (yields_token .asWord) fun _ _ => ?_
  refine yields_bind (yields_ident _) fun var hvar => ?_
  refine yields_bind (yields_stepOf bound var) fun step hstep => ?_
  refine yields_bind (yields_body bound hstmt) fun body hbody => yields_pure ?_
  exact ⟨hstart, hstop, hvar, hstep, hbody⟩

theorem yields_listLoop (hstmt : Yields (fun s => ∀ x ∈ s, Stmt.Legible x) stmt)
    (first : Token) : Yields Stmt.Legible (listLoop first stmt bound) := by
  refine yields_bind (yields_ident _) fun var hvar => ?_
  refine yields_bind (yields_token .inWord) fun _ _ => ?_
  refine yields_bind (yields_expression bound 0) fun source hsource => ?_
  refine yields_bind (yields_body bound hstmt) fun body hbody => yields_pure ?_
  exact ⟨hvar, hsource, hbody⟩

theorem yields_some {p : Parser (Stmt Token)} (hp : Yields Stmt.Legible p) :
    Yields (fun s => ∀ x ∈ s, Stmt.Legible x) (some <$> p) :=
  yields_map hp fun s hs x hx => by
    obtain rfl := Option.some.inj hx
    exact hs

/-- An unpacking is only tried behind a bracket. -/
theorem legible_of_unpacking {t : Token} (ht : t.kind = .lbrack) {ts rest : List Token}
    (hts : ∀ u ∈ t :: ts, u.Proper) {s : Stmt Token}
    (hok : unpacking bound (t :: ts) = .ok (s, rest)) :
    s.Legible ∧ ∀ u ∈ rest, u.Proper := by
  obtain ⟨names, mid, hnames, hok⟩ := bind_eq_ok_iff.mp hok
  -- The first token gives the shape of the left side, and the tokens give its parts.
  have hshape := expression_shape ht hnames
  obtain ⟨hlegible, hmid⟩ := yields_expression bound 0 (t :: ts) hts names mid hnames
  have hrest : Yields Stmt.Legible (do
      let eq ← token .assign
      let values ← wholeExpression bound
      return .unpack eq names values) :=
    yields_bind (yields_token .assign) fun _ _ => yields_bind (yields_expression bound 0)
      fun _ hvalues => yields_pure ⟨hshape, hlegible, hvalues⟩
  exact hrest mid hmid s rest hok

/-- Statements that are parsed are legible. -/
theorem yields_statement : Yields (fun s => ∀ x ∈ s, Stmt.Legible x) (statement bound) := by
  induction bound with
  | zero => exact yields_unexpected
  | succ b ih =>
    intro ts hts s rest hok
    cases ts with
    | nil => cases hok
    | cons t ts =>
      have hts' : ∀ u ∈ ts, u.Proper := fun u hu => hts u (List.mem_cons_of_mem t hu)
      have hprint := yields_some (yields_printing (b + 1) t) (t :: ts) hts s rest
      cases hstart : startsStatement t.kind with
      | false =>
        rw [statement_unexpected b ts hstart] at hok
        cases hok
      | true =>
        simp only [startsStatement, Bool.or_eq_true, beq_iff_eq, or_assoc] at hstart
        rcases hstart with hk | hk | hk | hk | hk | hk | hk | hk | hk
        · rw [statement_newline b ts hk] at hok
          obtain ⟨rfl, rfl⟩ := Prod.mk.inj (Except.ok.inj hok)
          exact ⟨by simp, hts'⟩
        · rw [statement_comment b ts hk] at hok
          obtain ⟨rfl, rfl⟩ := Prod.mk.inj (Except.ok.inj hok)
          exact ⟨by simp, fun u hu => hts' u ((List.dropWhile_suffix _).mem hu)⟩
        · cases ha : ts.head?.any (·.kind == .assign) with
          | true =>
            rw [statement_declaration b ts hk ha] at hok
            exact yields_some (yields_declaration (b + 1)) (t :: ts) hts s rest hok
          | false =>
            cases hp : ts.head?.any (·.kind == .lparen) && assignsOnLine ts with
            | true =>
              rw [statement_definition b ts hk ha hp] at hok
              exact yields_some (yields_definition (b + 1)) (t :: ts) hts s rest hok
            | false =>
              rw [statement_print_name b ts hk ha hp] at hok
              exact hprint hok
        · rw [statement_print b ts (.inl hk)] at hok
          exact hprint hok
        · rw [statement_print b ts (.inr hk)] at hok
          exact hprint hok
        · cases ha : assignsOnLine ts with
          | true =>
            rw [statement_unpacking b ts hk ha, map_eq_pure_bind] at hok
            obtain ⟨x, mid, hx, hpure⟩ := bind_eq_ok_iff.mp hok
            obtain ⟨rfl, rfl⟩ := Prod.mk.inj (Except.ok.inj hpure)
            obtain ⟨hlegible, hrest⟩ := legible_of_unpacking (b + 1) hk hts hx
            refine ⟨fun y hy => ?_, hrest⟩
            obtain rfl := Option.some.inj hy
            exact hlegible
          | false =>
            rw [statement_print_list b ts hk ha] at hok
            exact hprint hok
        · rw [statement_count b ts hk] at hok
          exact yields_some (yields_countLoop b ih t) ts hts' s rest hok
        · rw [statement_each b ts hk] at hok
          exact yields_some (yields_listLoop b ih t) ts hts' s rest hok
        · rw [statement_block b ts hk] at hok
          have hblock : Yields (fun s => ∀ x ∈ s, Stmt.Legible x)
              ((some ∘ Stmt.block t) <$> body (statement b) b) :=
            yields_map (yields_body b ih) fun ss hss x hx => by
              obtain rfl := Option.some.inj hx
              exact hss
          exact hblock (t :: ts) hts s rest hok

theorem yields_statements : Yields Stmt.AllLegible (statements bound) := by
  induction bound with
  | zero => exact yields_pure trivial
  | succ b ih =>
    intro ts hts p rest hok
    cases ts with
    | nil =>
      obtain ⟨rfl, rfl⟩ := Prod.mk.inj (Except.ok.inj hok)
      exact ⟨trivial, hts⟩
    | cons t ts => exact yields_step (yields_statement (b + 1)) ih (t :: ts) hts p rest hok

/-- Programs that are parsed are legible. -/
theorem allLegible_of_program {ts : List Token} (hts : ∀ t ∈ ts, t.Proper) {p : Program Token}
    (h : program ts = .ok p) : Stmt.AllLegible p := by
  rw [program] at h
  rcases hok : statements ts.length ts with c | ⟨q, rest⟩
  · rw [hok] at h
    cases h
  · rw [hok] at h
    obtain rfl := Except.ok.inj h
    exact (yields_statements _ ts hts q rest hok).1

end Parser

end ListCalc
