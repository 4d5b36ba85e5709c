/-
What the parser of statements depends on.

`follows_statement` carries the relation `Follows` through all statements, and
`statements_apply` through whole programs: a program that has been read is read
again in front of whatever stands behind a line end, and a complaint about the
program, unless its tokens ran out, is a complaint about the longer one.
-/
import ListCalc.Proofs.Expr.Parser
import ListCalc.Stmt.Parser

namespace ListCalc

namespace Parser

theorem statements_cons (bound : Nat) (t : Token) (ts : List Token) :
    statements (bound + 1) (t :: ts) = (do
      let s ← statement (bound + 1)
      let rest ← statements bound
      return s.toList ++ rest) (t :: ts) := rfl

theorem assignsOnLine_cons {t : Token} (ht : t.kind ≠ .newline) (ts : List Token) :
    assignsOnLine (t :: ts) = (t.kind == .assign || assignsOnLine ts) := by
  rw [assignsOnLine, List.takeWhile_cons, if_pos (bne_iff_ne.mpr ht), List.any_cons]
  rfl

/-! ### Statements by their first tokens -/

section

variable (bound : Nat) {t : Token} (ts : List Token)

theorem statement_newline (h : t.kind = .newline) :
    statement (bound + 1) (t :: ts) = .ok (none, ts) := by
  obtain ⟨k, text, place⟩ := t
  obtain rfl : k = .newline := h
  rfl

theorem statement_comment (h : t.kind = .comment) :
    statement (bound + 1) (t :: ts) = .ok (none, ts.dropWhile (·.kind != .newline)) := by
  obtain ⟨k, text, place⟩ := t
  obtain rfl : k = .comment := h
  rfl

theorem statement_declaration (h : t.kind = .ident)
    (hassign : ts.head?.any (·.kind == .assign) = true) :
    statement (bound + 1) (t :: ts) = (some <$> declaration (bound + 1)) (t :: ts) := by
  obtain ⟨k, text, place⟩ := t
  obtain rfl : k = .ident := h
  exact if_pos hassign

theorem statement_definition (h : t.kind = .ident)
    (hassign : ts.head?.any (·.kind == .assign) = false)
    (hparen : (ts.head?.any (·.kind == .lparen) && assignsOnLine ts) = true) :
    statement (bound + 1) (t :: ts) = (some <$> definition (bound + 1)) (t :: ts) := by
  obtain ⟨k, text, place⟩ := t
  obtain rfl : k = .ident := h
  exact (if_neg (Bool.eq_false_iff.mp hassign)).trans (if_pos hparen)

theorem statement_print_name (h : t.kind = .ident)
    (hassign : ts.head?.any (·.kind == .assign) = false)
    (hparen : (ts.head?.any (·.kind == .lparen) && assignsOnLine ts) = false) :
    statement (bound + 1) (t :: ts) = (some <$> printing t (bound + 1)) (t :: ts) := by
  obtain ⟨k, text, place⟩ := t
  obtain rfl : k = .ident := h
  exact (if_neg (Bool.eq_false_iff.mp hassign)).trans (if_neg (Bool.eq_false_iff.mp hparen))

theorem statement_print (h : t.kind = .number ∨ t.kind = .lparen) :
    statement (bound + 1) (t :: ts) = (some <$> printing t (bound + 1)) (t :: ts) := by
  obtain ⟨k, text, place⟩ := t
  obtain rfl | rfl : k = .number ∨ k = .lparen := h
  · rfl
  · rfl

theorem statement_unpacking (h : t.kind = .lbrack) (hassign : assignsOnLine ts = true) :
    statement (bound + 1) (t :: ts) = (some <$> unpacking (bound + 1)) (t :: ts) := by
  obtain ⟨k, text, place⟩ := t
  obtain rfl : k = .lbrack := h
  exact if_pos hassign

theorem statement_print_list (h : t.kind = .lbrack) (hassign : assignsOnLine ts = false) :
    statement (bound + 1) (t :: ts) = (some <$> printing t (bound + 1)) (t :: ts) := by
  obtain ⟨k, text, place⟩ := t
  obtain rfl : k = .lbrack := h
  exact if_neg (Bool.eq_false_iff.mp hassign)

theorem statement_count (h : t.kind = .fromWord) :
    statement (bound + 1) (t :: ts) = (some <$> countLoop t (statement bound) bound) ts := by
  obtain ⟨k, text, place⟩ := t
  obtain rfl : k = .fromWord := h
  rfl

theorem statement_each (h : t.kind = .forWord) :
    statement (bound + 1) (t :: ts) = (some <$> listLoop t (statement bound) bound) ts := by
  obtain ⟨k, text, place⟩ := t
  obtain rfl : k = .forWord := h
  rfl

theorem statement_block (h : t.kind = .lbrace) :
    statement (bound + 1) (t :: ts)
      = ((some ∘ Stmt.block t) <$> body (statement bound) bound) (t :: ts) := by
  obtain ⟨k, text, place⟩ := t
  obtain rfl : k = .lbrace := h
  rfl

/-- The kinds of token that start a statement, or stand for none. -/
def startsStatement (k : Kind) : Bool :=
  k == .newline || k == .comment || k == .ident || k == .number || k == .lparen || k == .lbrack
    || k == .fromWord || k == .forWord || k == .lbrace

theorem statement_unexpected (h : startsStatement t.kind = false) :
    statement (bound + 1) (t :: ts) = unexpected (t :: ts) := by
  rw [statement]
  dsimp only
  split
  all_goals try (next hk => rw [hk] at h; exact absurd h (by decide))
  rfl

end

/-! ### Bodies by their first token -/

theorem bodyRest_rbrace (stmt : Parser (Option (Stmt Token))) (b : Nat) {t : Token}
    (h : t.kind = .rbrace) (ts : List Token) :
    bodyRest stmt (b + 1) (t :: ts) = .ok ([], ts) := by
  rw [bodyRest]
  exact if_pos h

theorem bodyRest_step {stmt : Parser (Option (Stmt Token))} (m : Nat) {t : Token}
    (ht : t.kind ≠ .rbrace) (ts : List Token) :
    bodyRest stmt (m + 1) (t :: ts) = (do
      let s ← stmt
      let rest ← bodyRest stmt m
      return s.toList ++ rest) (t :: ts) := by
  rw [bodyRest]
  exact if_neg ht

theorem bodyRest_newline {nl : Token} (hnl : nl.kind = .newline) (n m : Nat) (ts : List Token) :
    bodyRest (statement (n + 1)) (m + 1) (nl :: ts) = bodyRest (statement (n + 1)) m ts := by
  rw [bodyRest_step m (by rw [hnl]; decide), bind_of_ok (statement_newline n ts hnl)]
  exact congrFun (bind_pure (bodyRest (statement (n + 1)) m)) ts

namespace Change

variable {c : Change} {n b b' : Nat}

/-! ### Lines -/

/-- The line at hand is the same before and after the change. -/
theorem assignsOnLine_apply (c : Change) (ts : List Token) :
    assignsOnLine (c.apply ts) = assignsOnLine ts := by
  induction ts with
  | nil =>
    rw [apply_nil]
    cases hmore : c.more with
    | nil => rfl
    | cons t ts =>
      have ht : t.kind = .newline := c.startsLine t (by simp [hmore])
      simp [assignsOnLine, ht]
  | cons t ts ih =>
    rw [apply_cons, assignsOnLine, assignsOnLine, List.takeWhile_cons, List.takeWhile_cons,
      Token.relocate_kind]
    cases ht : t.kind != .newline with
    | false => rfl
    | true =>
      simp only [if_true, List.any_cons, Token.relocate_kind]
      exact congrArg _ ih

theorem dropWhile_apply (c : Change) (ts : List Token) :
    (c.apply ts).dropWhile (·.kind != .newline) = c.apply (ts.dropWhile (·.kind != .newline)) := by
  induction ts with
  | nil =>
    rw [List.dropWhile_nil, apply_nil]
    cases hmore : c.more with
    | nil => rfl
    | cons t ts =>
      have ht : t.kind = .newline := c.startsLine t (by simp [hmore])
      simp [ht]
  | cons t ts ih =>
    rw [apply_cons, List.dropWhile_cons, List.dropWhile_cons, Token.relocate_kind]
    split
    · exact ih
    · rfl

/-! ### Declarations and prints -/

theorem follows_declaration (hb : n ≤ b) (hb' : n ≤ b') :
    c.Follows n 1 (Stmt.map (Token.relocate c.place)) (declaration b) (declaration b') := by
  refine follows_first (follows_ident _) fun name => ?_
  refine follows_next (follows_token .assign) fun eq => ?_
  refine follows_next (follows_expression hb hb' 0) fun value => ?_
  exact follows_pure (Stmt.declare eq name.toIdent value)

theorem follows_definition (hb : n ≤ b) (hb' : n ≤ b') :
    c.Follows n 1 (Stmt.map (Token.relocate c.place)) (definition b) (definition b') := by
  refine follows_first (follows_ident _) fun name => ?_
  refine follows_next (follows_token .lparen) fun _ => ?_
  refine follows_next
    (follows_items (by decide) (follows_ident _).loosely hb hb') fun params => ?_
  refine follows_next (follows_token .assign) fun _ => ?_
  refine follows_next (follows_expression hb hb' 0) fun body => ?_
  have hparams : (params.map (Token.relocate c.place)).map Token.toIdent
      = (params.map Token.toIdent).map (Ident.map (Token.relocate c.place)) := by
    rw [List.map_map, List.map_map]
    rfl
  rw [hparams]
  exact follows_pure (Stmt.define name.toIdent (params.map Token.toIdent) body)

theorem follows_unpacking (hb : n ≤ b) (hb' : n ≤ b') :
    c.Follows n 1 (Stmt.map (Token.relocate c.place)) (unpacking b) (unpacking b') := by
  refine follows_first (follows_expression hb hb' 0) fun names => ?_
  refine follows_next (follows_token .assign) fun eq => ?_
  refine follows_next (follows_expression hb hb' 0) fun values => ?_
  exact follows_pure (Stmt.unpack eq names values)

theorem follows_printing (hb : n ≤ b) (hb' : n ≤ b') (first : Token) :
    c.Follows n 1 (Stmt.map (Token.relocate c.place)) (printing first b)
      (printing (first.relocate c.place) b') :=
  follows_map (follows_expression hb hb' 0) fun _ => rfl

/-! ### Bodies and loops -/

variable {stmt stmt' : Parser (Option (Stmt Token))}

theorem mapAll_toList_append (g : Token → Token) (s : Option (Stmt Token))
    (ss : List (Stmt Token)) :
    Stmt.mapAll g (s.toList ++ ss) = (s.map (Stmt.map g)).toList ++ Stmt.mapAll g ss := by
  cases s <;> rfl

theorem follows_bodyRest
    (hstmt : c.Follows n 1 (Option.map (Stmt.map (Token.relocate c.place))) stmt stmt')
    (hb : n ≤ b) (hb' : n ≤ b') :
    c.Follows n 1 (Stmt.mapAll (Token.relocate c.place)) (bodyRest stmt b)
      (bodyRest stmt' b') := by
  induction n generalizing b b' with
  | zero =>
    intro ts hts
    obtain rfl : ts = [] := List.length_eq_zero_iff.mp (by omega)
    cases b <;> cases b' <;> exact Carries.atEnd rfl rfl rfl
  | succ n ih =>
    intro ts hts
    obtain ⟨b, rfl⟩ : ∃ d, b = d + 1 := ⟨b - 1, by omega⟩
    obtain ⟨b', rfl⟩ : ∃ d, b' = d + 1 := ⟨b' - 1, by omega⟩
    cases ts with
    | nil => exact Carries.atEnd rfl rfl rfl
    | cons t ts =>
      rw [apply_cons, bodyRest, bodyRest]
      dsimp only
      rw [Token.relocate_kind]
      by_cases ht : t.kind = .rbrace
      · rw [if_pos ht, if_pos ht]
        exact .ok (Nat.le_refl _)
      · rw [if_neg ht, if_neg ht]
        have hrest : c.Follows n 1 (Stmt.mapAll (Token.relocate c.place)) (bodyRest stmt b)
            (bodyRest stmt' b') :=
          ih (hstmt.mono (Nat.le_succ n) (Nat.le_refl 1)) (by omega) (by omega)
        refine follows_bind (j := 0) hstmt (fun s => ?_) (Nat.le_refl _) (Nat.le_refl 1)
          (t :: ts) hts
        refine follows_next hrest fun ss => ?_
        rw [← mapAll_toList_append]
        exact follows_pure (s.toList ++ ss)

theorem follows_body
    (hstmt : c.Follows n 1 (Option.map (Stmt.map (Token.relocate c.place))) stmt stmt')
    (hb : n ≤ b) (hb' : n ≤ b') :
    c.Follows (n + 1) 1 (Stmt.mapAll (Token.relocate c.place)) (body stmt b) (body stmt' b') := by
  refine follows_newlines_bind ?_ (starves_bind (starves_token .lbrace) _)
  exact follows_bind (follows_token .lbrace) (fun _ => follows_bodyRest hstmt hb hb')
    (Nat.le_refl _) (Nat.le_succ 1)

theorem follows_stepOf (hb : n ≤ b) (hb' : n ≤ b') (var : Token) :
    c.Follows n 0 (Expr.map (Token.relocate c.place)) (stepOf var b)
      (stepOf (var.relocate c.place) b') := by
  refine follows_first (follows_nextIs (by decide)) fun found => ?_
  refine follows_ite ?_ ?_
  · refine follows_next (follows_token .withWord) fun _ => ?_
    refine follows_next (follows_token .stepWord) fun _ => ?_
    exact (follows_expression hb hb' 0).mono (Nat.le_refl n) (Nat.zero_le 1)
  · exact follows_pure (unitStep var)

theorem follows_countLoop
    (hstmt : c.Follows n 1 (Option.map (Stmt.map (Token.relocate c.place))) stmt stmt')
    (hb : n ≤ b) (hb' : n ≤ b') (first : Token) :
    c.Follows n 1 (Stmt.map (Token.relocate c.place)) (countLoop first stmt b)
      (countLoop (first.relocate c.place) stmt' b') := by
  refine follows_first (follows_expression hb hb' 0) fun start => ?_
  refine follows_next (follows_token .toWord) fun _ => ?_
  refine follows_next (follows_expression hb hb' 0) fun stop => ?_
  refine follows_next (follows_token .asWord) fun _ => ?_
  refine follows_next (follows_ident _) fun var => ?_
  refine follows_next (follows_stepOf hb hb' var) fun step => ?_
  refine follows_next
    ((follows_body hstmt hb hb').mono (Nat.le_succ n) (Nat.le_refl 1)) fun stmts => ?_
  exact follows_pure (Stmt.count first start stop var.toIdent step stmts)

theorem follows_listLoop
    (hstmt : c.Follows n 1 (Option.map (Stmt.map (Token.relocate c.place))) stmt stmt')
    (hb : n ≤ b) (hb' : n ≤ b') (first : Token) :
    c.Follows n 1 (Stmt.map (Token.relocate c.place)) (listLoop first stmt b)
      (listLoop (first.relocate c.place) stmt' b') := by
  refine follows_first (follows_ident _) fun var => ?_
  refine follows_next (follows_token .inWord) fun _ => ?_
  refine follows_next (follows_expression hb hb' 0) fun source => ?_
  refine follows_next
    ((follows_body hstmt hb hb').mono (Nat.le_succ n) (Nat.le_refl 1)) fun stmts => ?_
  exact follows_pure (Stmt.each first var.toIdent source stmts)

theorem follows_some {p q : Parser (Stmt Token)} {k : Nat}
    (h : c.Follows n k (Stmt.map (Token.relocate c.place)) p q) :
    c.Follows n k (Option.map (Stmt.map (Token.relocate c.place))) (some <$> p) (some <$> q) :=
  follows_map h fun _ => rfl

/-- **A statement depends on the kinds and texts of its tokens only**, as an expression does.  In
particular the choice between a definition, an unpacking and a print looks no further than the
line end. -/
theorem follows_statement (hb : n ≤ b) (hb' : n ≤ b') :
    c.Follows n 1 (Option.map (Stmt.map (Token.relocate c.place))) (statement b)
      (statement b') := by
  induction n generalizing b b' with
  | zero =>
    intro ts hts
    obtain rfl : ts = [] := List.length_eq_zero_iff.mp (by omega)
    cases b <;> cases b' <;> exact Carries.atEnd rfl rfl rfl
  | succ n ih =>
    intro ts hts
    obtain ⟨b, rfl⟩ : ∃ d, b = d + 1 := ⟨b - 1, by omega⟩
    obtain ⟨b', rfl⟩ : ∃ d, b' = d + 1 := ⟨b' - 1, by omega⟩
    cases ts with
    | nil => exact Carries.atEnd rfl rfl rfl
    | cons t ts =>
      have hlen : ts.length ≤ n := Nat.le_of_succ_le_succ hts
      have hnb : n ≤ b := Nat.le_of_succ_le_succ hb
      have hnb' : n ≤ b' := Nat.le_of_succ_le_succ hb'
      have hinner : c.Follows n 1 (Option.map (Stmt.map (Token.relocate c.place))) (statement b)
          (statement b') := ih hnb hnb'
      have hprint := follows_some (follows_printing (c := c) hb hb' t) (t :: ts) hts
      have hassign := head?_apply_any (show Kind.assign ≠ .newline by decide) c ts
      have hparen := head?_apply_any (show Kind.lparen ≠ .newline by decide) c ts
      have hline := assignsOnLine_apply c ts
      rw [apply_cons] at hprint ⊢
      cases hstart : startsStatement t.kind with
      | false =>
        rw [statement_unexpected b ts hstart,
          statement_unexpected b' (t := t.relocate c.place) _ hstart]
        exact .error
      | true =>
        simp only [startsStatement, Bool.or_eq_true, beq_iff_eq, or_assoc] at hstart
        rcases hstart with hk | hk | hk | hk | hk | hk | hk | hk | hk
        · rw [statement_newline b ts hk, statement_newline b' (t := t.relocate c.place) _ hk]
          exact .ok (Nat.le_refl _)
        · rw [statement_comment b ts hk, statement_comment b' (t := t.relocate c.place) _ hk,
            dropWhile_apply]
          exact .ok (Nat.succ_le_succ (List.dropWhile_suffix _).length_le)
        · -- A name: the next token and the line decide, and the change alters neither.
          cases ha : ts.head?.any (·.kind == .assign) with
          | true =>
            rw [statement_declaration b ts hk ha,
              statement_declaration b' (t := t.relocate c.place) _ hk (hassign.trans ha)]
            exact follows_some (follows_declaration hb hb') (t :: ts) hts
          | false =>
            cases hp : ts.head?.any (·.kind == .lparen) && assignsOnLine ts with
            | true =>
              rw [statement_definition b ts hk ha hp,
                statement_definition b' (t := t.relocate c.place) _ hk (hassign.trans ha)
                  (by rw [hparen, hline, hp])]
              exact follows_some (follows_definition hb hb') (t :: ts) hts
            | false =>
              rw [statement_print_name b ts hk ha hp,
                statement_print_name b' (t := t.relocate c.place) _ hk (hassign.trans ha)
                  (by rw [hparen, hline, hp])]
              exact hprint
        · rw [statement_print b ts (.inl hk),
            statement_print b' (t := t.relocate c.place) _ (.inl hk)]
          exact hprint
        · rw [statement_print b ts (.inr hk),
            statement_print b' (t := t.relocate c.place) _ (.inr hk)]
          exact hprint
        · cases ha : assignsOnLine ts with
          | true =>
            rw [statement_unpacking b ts hk ha,
              statement_unpacking b' (t := t.relocate c.place) _ hk (hline.trans ha)]
            exact follows_some (follows_unpacking hb hb') (t :: ts) hts
          | false =>
            rw [statement_print_list b ts hk ha,
              statement_print_list b' (t := t.relocate c.place) _ hk (hline.trans ha)]
            exact hprint
        · rw [statement_count b ts hk, statement_count b' (t := t.relocate c.place) _ hk]
          have hloop := follows_some (follows_countLoop hinner hnb hnb' t)
          exact (hloop ts hlen).mono (Nat.le_succ _)
        · rw [statement_each b ts hk, statement_each b' (t := t.relocate c.place) _ hk]
          have hloop := follows_some (follows_listLoop hinner hnb hnb' t)
          exact (hloop ts hlen).mono (Nat.le_succ _)
        · rw [statement_block b ts hk, statement_block b' (t := t.relocate c.place) _ hk]
          have hblock : c.Follows (n + 1) 1 (Option.map (Stmt.map (Token.relocate c.place)))
              ((some ∘ Stmt.block t) <$> body (statement b) b)
              ((some ∘ Stmt.block (t.relocate c.place)) <$> body (statement b') b') :=
            follows_map (follows_body hinner hnb hnb') fun _ => rfl
          exact hblock (t :: ts) hts

/-! ### Programs -/

/-- A program is read to its end, and then what follows is read; or the complaint about it is
repeated, unless there are more tokens now. -/
theorem statements_apply (c : Change) {ts : List Token} (hb : ts.length ≤ b)
    (hb' : (c.apply ts).length ≤ b') :
    (∃ p d, statements b ts = .ok (p, []) ∧ c.more.length ≤ d ∧
      statements b' (c.apply ts)
        = ((Stmt.mapAll (Token.relocate c.place) p ++ ·) <$> statements d) c.more) ∨
    (∃ e, statements b ts = .error e ∧ ((e.kind = .cutShort ∧ c.more ≠ []) ∨
      statements b' (c.apply ts) = .error (e.relocate c.place))) := by
  induction b generalizing ts b' with
  | zero =>
    obtain rfl : ts = [] := List.length_eq_zero_iff.mp (by omega)
    exact .inl ⟨[], b', rfl, hb', (id_map (statements b')).symm ▸ rfl⟩
  | succ b ih =>
    cases ts with
    | nil => exact .inl ⟨[], b', rfl, hb', (id_map (statements b')).symm ▸ rfl⟩
    | cons t ts =>
      rw [apply_cons] at hb' ⊢
      obtain ⟨b', rfl⟩ : ∃ d, b' = d + 1 := ⟨b' - 1, by simp at hb'; omega⟩
      have hlen : (t :: ts).length ≤ b' + 1 := by
        simp [apply] at hb'
        simp
        omega
      have hfirst := follows_statement (c := c) hb hlen (t :: ts) (Nat.le_refl _)
      simp only [statements_cons, bind_apply, apply_cons] at hfirst ⊢
      generalize statement (b + 1) (t :: ts) = x,
        statement (b' + 1) (t.relocate c.place :: c.apply ts) = y at hfirst
      cases hfirst with
      | error => exact .inr ⟨_, rfl, .inr rfl⟩
      | cut h hmore => exact .inr ⟨_, rfl, .inl ⟨h, hmore⟩⟩
      | used h _ _ => exact h.elim
      | @ok s rest h =>
        -- A statement was read, so fewer tokens are left for the others.
        have hrest : (c.apply rest).length ≤ b' := by
          simp [apply] at hb' h ⊢
          omega
        obtain ⟨p, d, hp, hd, hq⟩ | ⟨e, he, hq⟩ := ih (show rest.length ≤ b by omega) hrest
        · refine .inl ⟨s.toList ++ p, d, by simp only [hp]; rfl, hd, ?_⟩
          simp only [hq, map_apply, mapAll_toList_append]
          rcases statements d c.more with e | ⟨q, rest'⟩
          · rfl
          · simp only [pure_apply, List.append_assoc]
        · refine .inr ⟨e, by simp only [he], ?_⟩
          rcases hq with hcut | hq
          · exact .inl hcut
          · exact .inr (by simp only [hq])

end Change

/-- The program that tokens before the end of a source spell. -/
def program (ts : List Token) : Except Complaint (Program Token) :=
  (statements ts.length ts).map Prod.fst

/-- A bound that covers the tokens is as good as any. -/
theorem statements_of_le {b : Nat} {ts : List Token} (hb : ts.length ≤ b) :
    statements b ts = (program ts).map (·, []) := by
  have h := Change.statements_apply Change.same (Nat.le_refl ts.length)
    (show (Change.same.apply ts).length ≤ b by rwa [Change.apply_same])
  have hmap : ∀ p : Program Token, Stmt.mapAll (Token.relocate Change.same.place) p = p :=
    Stmt.mapAll_id
  rw [Change.apply_same] at h
  rw [program]
  obtain ⟨p, d, hp, -, hq⟩ | ⟨e, he, ⟨-, hmore⟩ | hq⟩ := h
  · rw [map_apply, hmap] at hq
    rw [hp, hq]
    cases d <;> simp [Change.same, statements, Except.map]
  · exact absurd rfl hmore
  · rw [he, hq]
    exact congrArg Except.error e.relocate_same

theorem program_of_le {b : Nat} {ts : List Token} (hb : ts.length ≤ b) :
    program ts = (statements b ts).map Prod.fst := by
  rw [statements_of_le hb]
  cases program ts <;> rfl

theorem program_cons (t : Token) (ts : List Token) :
    program (t :: ts) = match statement (ts.length + 1) (t :: ts) with
      | .ok (s, rest) => ((statements ts.length) rest).map fun x => s.toList ++ x.1
      | .error c => .error c := by
  rw [program, List.length_cons, statements_cons, bind_apply]
  rcases statement (ts.length + 1) (t :: ts) with c | ⟨s, rest⟩
  · rfl
  · dsimp only
    rw [bind_apply]
    rcases statements ts.length rest with c | ⟨ss, rest'⟩ <;> rfl

/-- What tokens before a change spell, and what they spell after it. -/
theorem program_apply (c : Change) (ts : List Token) :
    (∃ p, program ts = .ok p ∧ program (c.apply ts)
      = (program c.more).map (Stmt.mapAll (Token.relocate c.place) p ++ ·)) ∨
    (∃ e, program ts = .error e ∧ ((e.kind = .cutShort ∧ c.more ≠ []) ∨
      program (c.apply ts) = .error (e.relocate c.place))) := by
  obtain ⟨p, d, hp, hd, hq⟩ | ⟨e, he, hq⟩ :=
    Change.statements_apply c (Nat.le_refl ts.length) (Nat.le_refl (c.apply ts).length)
  · refine .inl ⟨p, by rw [program, hp]; rfl, ?_⟩
    rw [program, hq, map_apply, statements_of_le hd]
    cases program c.more <;> rfl
  · refine .inr ⟨e, by rw [program, he]; rfl, ?_⟩
    rcases hq with hcut | hq
    · exact .inl hcut
    · exact .inr (by rw [program, hq]; rfl)

/-- Tokens at other places spell the same program with marks at other places. -/
theorem program_relocate (g : Place → Place) (ts : List Token) :
    program (ts.map (Token.relocate g)) = match program ts with
      | .ok p => .ok (Stmt.mapAll (Token.relocate g) p)
      | .error e => .error (e.relocate g) := by
  have happly : Change.apply ⟨g, [], by simp⟩ ts = ts.map (Token.relocate g) := List.append_nil _
  obtain ⟨p, hp, hq⟩ | ⟨e, he, ⟨-, hmore⟩ | hq⟩ := program_apply ⟨g, [], by simp⟩ ts
  · rw [happly] at hq
    rw [hq, hp]
    exact congrArg Except.ok (List.append_nil _)
  · exact absurd rfl hmore
  · rw [happly] at hq
    rw [hq, he]

section

variable {nl : Token} (hnl : nl.kind = .newline) (us : List Token) {ts : List Token}

include hnl

theorem program_newline : program (nl :: us) = program us := by
  rw [program, List.length_cons, statements_cons, bind_apply, statement_newline _ _ hnl]
  dsimp only
  rw [bind_apply, statements_of_le (Nat.le_refl _)]
  cases program us <;> rfl

/-- Behind a program and a line end, the next program is read. -/
theorem program_append_of_ok {p : Program Token} (hp : program ts = .ok p) :
    program (ts ++ nl :: us) = (program us).map (p ++ ·) := by
  have hchange : Change.apply ⟨fun p => p, nl :: us, by simp [hnl]⟩ ts = ts ++ nl :: us :=
    congrArg (· ++ nl :: us) (List.map_id ts)
  have hmap : ∀ p : Program Token, Stmt.mapAll (Token.relocate fun p => p) p = p := Stmt.mapAll_id
  obtain ⟨p', hp', hq⟩ | ⟨e, he, -⟩ := program_apply ⟨fun p => p, nl :: us, by simp [hnl]⟩ ts
  · obtain rfl : p' = p := Except.ok.inj (hp'.symm.trans hp)
    rw [← hchange, hq, hmap, program_newline hnl]
  · rw [hp] at he
    cases he

/-- A complaint is final unless the tokens ran out. -/
theorem program_append_of_error {e : Complaint} (he : program ts = .error e)
    (hkind : e.kind ≠ .cutShort) : program (ts ++ nl :: us) = .error e := by
  have hchange : Change.apply ⟨fun p => p, nl :: us, by simp [hnl]⟩ ts = ts ++ nl :: us :=
    congrArg (· ++ nl :: us) (List.map_id ts)
  obtain ⟨p, hp, -⟩ | ⟨e', he', ⟨hcut, -⟩ | hq⟩ :=
    program_apply ⟨fun p => p, nl :: us, by simp [hnl]⟩ ts
  · rw [he] at hp
    cases hp
  · obtain rfl : e' = e := Except.error.inj (he'.symm.trans he)
    exact absurd hcut hkind
  · obtain rfl : e' = e := Except.error.inj (he'.symm.trans he)
    rw [← hchange, hq]
    exact congrArg Except.error e'.relocate_same

end

end Parser

end ListCalc
