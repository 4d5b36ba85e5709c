/-
What the parser of expressions depends on.

`follows_expression` carries the relation `Follows` through all productions of an
expression.  With no change of the input it says that the bound is irrelevant once
it covers the tokens; with a change of places, that places are only copied into
marks; with more tokens behind a line end, that an expression which has been read
is not read any further.
-/
import ListCalc.Expr.Parser
import ListCalc.Proofs.Marks
import ListCalc.Proofs.Parser

namespace ListCalc

namespace Parser

theorem exists_of_head?_any {k : Kind} {ts : List Token}
    (h : ts.head?.any (·.kind == k) = true) : ∃ t rest, ts = t :: rest ∧ t.kind = k := by
  cases ts with
  | nil => exact absurd h (by simp)
  | cons t rest => exact ⟨t, rest, rfl, by simpa using h⟩

/-! ### Operands by their first token -/

section

variable (inner : Parser (Expr Token)) (bound : Nat) {t p : Token} (ts : List Token)

theorem operand_number (h : t.kind = .number) :
    operand inner bound (t :: ts) = .ok (.number t t.text, ts) := by
  obtain ⟨k, text, place⟩ := t
  obtain rfl : k = .number := h
  rfl

theorem operand_name (h : t.kind = .ident)
    (hnext : ts.head?.any (·.kind == .lparen) = false) :
    operand inner bound (t :: ts) = .ok (.name t.toIdent, ts) := by
  obtain ⟨k, text, place⟩ := t
  obtain rfl : k = .ident := h
  cases ts with
  | nil => rfl
  | cons p rest => exact if_neg (by simpa using hnext)

theorem operand_call (h : t.kind = .ident) (hp : p.kind = .lparen) :
    operand inner bound (t :: p :: ts)
      = (Expr.call t.toIdent <$> elements inner .rparen bound) ts := by
  obtain ⟨k, text, place⟩ := t
  obtain rfl : k = .ident := h
  exact if_pos hp

theorem operand_negative (h : t.kind = .minus) (hp : p.kind = .number) :
    operand inner bound (t :: p :: ts) = .ok (.negative t p.text, ts) := by
  obtain ⟨k, text, place⟩ := t
  obtain rfl : k = .minus := h
  exact if_pos hp

theorem operand_minus (h : t.kind = .minus)
    (hnext : ts.head?.any (·.kind == .number) = false) :
    operand inner bound (t :: ts) = .error ⟨.missingNumber, some t, ""⟩ := by
  obtain ⟨k, text, place⟩ := t
  obtain rfl : k = .minus := h
  cases ts with
  | nil => rfl
  | cons p rest => exact if_neg (by simpa using hnext)

theorem operand_group (h : t.kind = .lparen) :
    operand inner bound (t :: ts) = grouped inner ts := by
  obtain ⟨k, text, place⟩ := t
  obtain rfl : k = .lparen := h
  rfl

theorem operand_list (h : t.kind = .lbrack) :
    operand inner bound (t :: ts) = (Expr.list t <$> elements inner .rbrack bound) ts := by
  obtain ⟨k, text, place⟩ := t
  obtain rfl : k = .lbrack := h
  rfl

/-- The kinds of token that start an operand. -/
def startsOperand (k : Kind) : Bool :=
  k == .number || k == .ident || k == .minus || k == .lparen || k == .lbrack

theorem operand_unexpected (h : startsOperand t.kind = false) :
    operand inner bound (t :: ts) = unexpected (t :: ts) := by
  unfold operand
  dsimp only
  split
  all_goals try (next hk => rw [hk] at h; exact absurd h (by decide))
  rfl

end

/-! ### Operators behind an operand -/

/-- No operator that binds at least as tightly as `least` comes next. -/
def StopsAt (least : Nat) (ts : List Token) : Prop :=
  ∀ t ∈ ts.head?, ∀ p, precedence? t.kind = some p → p < least

theorem stopsAt_nil (least : Nat) : StopsAt least [] := by
  intro t ht
  exact absurd ht (by simp)

theorem exists_of_not_stopsAt {least : Nat} {ts : List Token} (h : ¬ StopsAt least ts) :
    ∃ op rest p, ts = op :: rest ∧ precedence? op.kind = some p ∧ least ≤ p := by
  cases ts with
  | nil => exact absurd (stopsAt_nil least) h
  | cons op rest =>
    cases hp : precedence? op.kind with
    | none =>
      refine absurd (fun t ht p hp' => ?_) h
      obtain rfl : op = t := Option.some.inj ht
      rw [hp] at hp'
      cases hp'
    | some p =>
      refine ⟨op, rest, p, rfl, hp, Nat.le_of_not_lt fun hlt => h fun t ht q hq => ?_⟩
      obtain rfl : op = t := Option.some.inj ht
      rw [hp] at hq
      obtain rfl := Option.some.inj hq
      exact hlt

theorem operations_stop (above : Nat → Parser (Expr Token)) {least : Nat} (bound : Nat)
    (left : Expr Token) {ts : List Token} (h : StopsAt least ts) :
    operations above least bound left ts = .ok (left, ts) := by
  cases bound with
  | zero => rfl
  | succ bound =>
    cases ts with
    | nil => rfl
    | cons op ts =>
      rw [operations]
      dsimp only
      split
      · rfl
      · next p hp => rw [if_pos (h op rfl p hp)]

theorem operations_step (above : Nat → Parser (Expr Token)) {least p : Nat} (bound : Nat)
    (left : Expr Token) {op : Token} (ts : List Token) (hp : precedence? op.kind = some p)
    (hleast : least ≤ p) :
    operations above least (bound + 1) left (op :: ts) = (do
      let right ← above (p + 1)
      operations above least bound (.binary op op.text left right)) ts := by
  rw [operations]
  dsimp only
  simp only [hp]
  rw [if_neg (by omega)]

/-! ### Parsers that need a token -/

theorem starves_operand (inner : Parser (Expr Token)) (bound : Nat) :
    Starves (operand inner bound) := ⟨_, rfl, rfl⟩

theorem starves_expression (bound least : Nat) : Starves (expression bound least) := by
  cases bound with
  | zero => exact ⟨_, rfl, rfl⟩
  | succ bound => exact starves_bind (starves_operand _ _) _

namespace Change

variable {c : Change} {n b b' : Nat} {inner inner' : Parser (Expr Token)}

theorem stopsAt_apply {least : Nat} {ts : List Token} (h : StopsAt least ts) :
    StopsAt least (c.apply ts) := by
  intro t ht p hp
  cases ts with
  | nil =>
    rw [c.startsLine t ht] at hp
    cases hp
  | cons op rest =>
    obtain rfl : op.relocate c.place = t := Option.some.inj ht
    exact h op rfl p hp

/-- Expressions between brackets. -/
theorem follows_elements {close : Kind} (hclose : close ≠ .newline)
    (hinner : c.Follows n 1 (Expr.map (Token.relocate c.place)) inner inner')
    (hend : Starves inner) (hb : n ≤ b) (hb' : n ≤ b') :
    c.Follows n 1 (Expr.mapAll (Token.relocate c.place)) (elements inner close b)
      (elements inner' close b') := by
  have hitem : c.FollowsLoosely n 1 (Expr.map (Token.relocate c.place))
      (do newlines; let e ← inner; newlines; return e)
      (do newlines; let e ← inner'; newlines; return e) := by
    refine follows_newlines_bind ?_ (starves_bind hend _)
    refine follows_first hinner fun e => ?_
    rw [← map_eq_pure_bind, ← map_eq_pure_bind]
    exact follows_map followsLoosely_newlines fun _ => rfl
  rw [funext (Expr.mapAll_eq_map _)]
  have hstart : Starves (do newlines; let e ← inner; newlines; return e) :=
    starves_newlines_bind (starves_bind hend _)
  exact follows_newlines_bind (follows_items hclose hitem hb hb') (starves_items hstart close b)

/-- An expression in parentheses. -/
theorem follows_grouped
    (hinner : c.Follows n 1 (Expr.map (Token.relocate c.place)) inner inner')
    (hend : Starves inner) :
    c.Follows n 2 (Expr.map (Token.relocate c.place)) (grouped inner) (grouped inner') := by
  refine follows_newlines_bind ?_ (starves_bind hend _)
  -- The expression is one token at least, and the parenthesis another.
  refine follows_bind (j := 1) hinner (fun e => ?_) (Nat.le_add_right n 1) (Nat.le_refl 2)
  refine follows_newlines_bind ?_ (starves_bind (starves_token .rparen) _)
  exact follows_first (follows_token .rparen) fun _ => follows_pure e

/-- An operand: what stands between its brackets has fewer tokens than the operand. -/
theorem follows_operand
    (hinner : c.Follows n 1 (Expr.map (Token.relocate c.place)) inner inner')
    (hend : Starves inner) (hb : n ≤ b) (hb' : n ≤ b') :
    c.Follows (n + 1) 1 (Expr.map (Token.relocate c.place)) (operand inner b)
      (operand inner' b') := by
  intro ts hts
  cases ts with
  | nil => exact Carries.atEnd rfl rfl rfl
  | cons t ts =>
    have hlen : ts.length ≤ n := Nat.le_of_succ_le_succ hts
    rw [apply_cons]
    cases hstart : startsOperand t.kind with
    | false =>
      rw [operand_unexpected inner b ts hstart,
        operand_unexpected inner' b' (t := t.relocate c.place) _ hstart]
      exact .error
    | true =>
      simp only [startsOperand, Bool.or_eq_true, beq_iff_eq, or_assoc] at hstart
      rcases hstart with hk | hk | hk | hk | hk
      · rw [operand_number inner b ts hk, operand_number inner' b' (t := t.relocate c.place) _ hk]
        exact .ok (Nat.le_refl _)
      · -- A name: a parenthesis makes it a call, and a line end is none.
        have hnext := head?_apply_any (show Kind.lparen ≠ .newline by decide) c ts
        cases hp : ts.head?.any (·.kind == .lparen) with
        | false =>
          rw [operand_name inner b ts hk hp,
            operand_name inner' b' (t := t.relocate c.place) _ hk (hnext.trans hp)]
          exact .ok (Nat.le_refl _)
        | true =>
          obtain ⟨p, rest, rfl, hq⟩ := exists_of_head?_any hp
          rw [apply_cons, operand_call inner b rest hk hq,
            operand_call inner' b' (t := t.relocate c.place) (p := p.relocate c.place) _ hk hq]
          have hcall : c.Follows n 1 (Expr.map (Token.relocate c.place))
              (Expr.call t.toIdent <$> elements inner .rparen b)
              (Expr.call (t.relocate c.place).toIdent <$> elements inner' .rparen b') :=
            follows_map (follows_elements (by decide) hinner hend hb hb') fun _ => rfl
          simp only [List.length_cons] at hlen ⊢
          exact (hcall rest (by omega)).mono (by omega)
      · -- A minus sign: only a number may follow it, on the same line.
        have hnext := head?_apply_any (show Kind.number ≠ .newline by decide) c ts
        cases hp : ts.head?.any (·.kind == .number) with
        | false =>
          rw [operand_minus inner b ts hk hp,
            operand_minus inner' b' (t := t.relocate c.place) _ hk (hnext.trans hp)]
          exact .error
        | true =>
          obtain ⟨p, rest, rfl, hq⟩ := exists_of_head?_any hp
          rw [apply_cons, operand_negative inner b rest hk hq,
            operand_negative inner' b' (t := t.relocate c.place) (p := p.relocate c.place) _ hk hq]
          exact .ok (by simp)
      · rw [operand_group inner b ts hk, operand_group inner' b' (t := t.relocate c.place) _ hk]
        simp only [List.length_cons]
        exact (follows_grouped hinner hend ts hlen).mono (by omega)
      · rw [operand_list inner b ts hk, operand_list inner' b' (t := t.relocate c.place) _ hk]
        have hlist : c.Follows n 1 (Expr.map (Token.relocate c.place))
            (Expr.list t <$> elements inner .rbrack b)
            (Expr.list (t.relocate c.place) <$> elements inner' .rbrack b') :=
          follows_map (follows_elements (by decide) hinner hend hb hb') fun _ => rfl
        simp only [List.length_cons]
        exact (hlist ts hlen).mono (by omega)

/-- Operators behind an expression: none of them is a line end. -/
theorem follows_operations {above above' : Nat → Parser (Expr Token)}
    (habove : ∀ p, c.Follows n 1 (Expr.map (Token.relocate c.place)) (above p) (above' p))
    (least : Nat) (hb : n ≤ b) (hb' : n ≤ b') (left : Expr Token) :
    c.Follows n 0 (Expr.map (Token.relocate c.place)) (operations above least b left)
      (operations above' least b' (left.map (Token.relocate c.place))) := by
  induction n generalizing b b' left with
  | zero =>
    intro ts hts
    obtain rfl : ts = [] := List.length_eq_zero_iff.mp (by omega)
    rw [operations_stop above b left (stopsAt_nil least),
      operations_stop above' b' _ (stopsAt_apply (stopsAt_nil least))]
    exact .ok (Nat.le_refl _)
  | succ n ih =>
    intro ts hts
    -- A line end is no operator, so where the input stops, the changed one does too.
    by_cases hstop : StopsAt least ts
    · rw [operations_stop above b left hstop, operations_stop above' b' _ (stopsAt_apply hstop)]
      exact .ok (Nat.le_refl _)
    · obtain ⟨b, rfl⟩ : ∃ d, b = d + 1 := ⟨b - 1, by omega⟩
      obtain ⟨b', rfl⟩ : ∃ d, b' = d + 1 := ⟨b' - 1, by omega⟩
      obtain ⟨op, rest, p, rfl, hp, hleast⟩ := exists_of_not_stopsAt hstop
      rw [apply_cons, operations_step above b left rest hp hleast,
        operations_step above' b' _ _
          (show precedence? (op.relocate c.place).kind = some p from hp) hleast]
      have habove' := fun p => (habove p).mono (Nat.le_succ n) (Nat.le_refl 1)
      have hoperation : c.Follows n 1 (Expr.map (Token.relocate c.place))
          (do let right ← above (p + 1)
              operations above least b (.binary op op.text left right))
          (do let right ← above' (p + 1)
              operations above' least b' (.binary (op.relocate c.place) op.text
                (left.map (Token.relocate c.place)) right)) :=
        follows_first (habove' (p + 1)) fun right =>
          ih habove' (by omega) (by omega) (.binary op op.text left right)
      simp only [List.length_cons] at hts ⊢
      exact (hoperation rest (by omega)).mono (by omega)

/-- **An expression depends on the kinds and texts of its tokens only.**  It makes no difference
how far the bounds exceed the number of tokens, where the tokens stand, and what follows behind a
line end. -/
theorem follows_expression (hb : n ≤ b) (hb' : n ≤ b') (least : Nat) :
    c.Follows n 1 (Expr.map (Token.relocate c.place)) (expression b least)
      (expression b' least) := by
  induction n generalizing b b' least with
  | zero =>
    intro ts hts
    obtain rfl : ts = [] := List.length_eq_zero_iff.mp (by omega)
    cases b <;> cases b' <;> exact Carries.atEnd rfl rfl rfl
  | succ n ih =>
    obtain ⟨b, rfl⟩ : ∃ d, b = d + 1 := ⟨b - 1, by omega⟩
    obtain ⟨b', rfl⟩ : ∃ d, b' = d + 1 := ⟨b' - 1, by omega⟩
    -- What stands in brackets or behind an operator has a token less.
    have hinner : ∀ least, c.Follows n 1 (Expr.map (Token.relocate c.place)) (expression b least)
        (expression b' least) := ih (by omega) (by omega)
    have hleft : c.Follows (n + 1) 1 (Expr.map (Token.relocate c.place))
        (operand (expression b 0) b) (operand (expression b' 0) b') :=
      follows_operand (hinner 0) (starves_expression b 0) (by omega) (by omega)
    refine follows_bind (j := 0) hleft (fun left => ?_) (Nat.le_refl _) (Nat.le_refl 1)
    exact follows_operations hinner least (by omega) (by omega) left

end Change

end Parser

end ListCalc
