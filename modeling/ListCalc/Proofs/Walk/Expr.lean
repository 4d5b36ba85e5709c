/-
Walks through expressions.

`tracks_expression` takes the relation `Tracks` through all productions of an
expression.  The walk has no bound, so the induction is on the tokens before the
end of the source: behind an operator and between brackets there is one less.
-/
import Mathlib.Data.List.DropRight
import ListCalc.Proofs.Expr.Parser
import ListCalc.Proofs.Walk.Track

namespace ListCalc

namespace Parser

/-- Expressions between brackets, with the line ends before the first one skipped once. -/
theorem elements_eq (inner : Parser (Expr Token)) (close : Kind) (b : Nat) :
    elements inner close b = (do
      newlines
      if ← nextIs close then
        let _ ← token close
        return []
      else
        let e ← (do let e ← inner; newlines; return e)
        let rest ← moreItems (do newlines; let e ← inner; newlines; return e) close b
        return e :: rest) := by
  funext ts
  have hskip : newlines (ts.dropWhile (·.kind == .newline))
      = .ok ((), ts.dropWhile (·.kind == .newline)) := by
    rw [newlines, List.dropWhile_idempotent]
  rw [elements, bind_of_ok (rfl : newlines ts = _), bind_of_ok (rfl : newlines ts = _), items,
    bind_of_ok (rfl : nextIs close _ = _), bind_of_ok (rfl : nextIs close _ = _)]
  split
  · rfl
  · rw [bind_assoc, bind_of_ok hskip]

end Parser

namespace Walk

variable {n b : Nat} {inner : Parser (Expr Token)}

/-! ### Brackets -/

theorem tracks_elements {close : Kind} (hclose : close ≠ .eof)
    (hinner : Tracks n 1 inner (Phrase.expression 0).walk) (hb : n ≤ b) :
    Tracks n 1 (Parser.elements inner close b) (Phrase.elements close).walk := by
  have hstart : Tracks n 1 (do let e ← inner; Parser.newlines; return e)
      (do let e ← (Phrase.expression 0).walk; Phrase.newlines.walk; return e) :=
    tracks_first hinner fun e => tracks_first tracks_newlines fun _ => tracks_pure e
  have hitem : Tracks n 1 (do Parser.newlines; let e ← inner; Parser.newlines; return e)
      (do
        Phrase.newlines.walk
        let e ← (Phrase.expression 0).walk
        Phrase.newlines.walk
        return e) :=
    tracks_next tracks_newlines fun _ => hstart
  rw [Parser.elements_eq, Phrase.walk]
  refine tracks_next tracks_newlines fun _ => ?_
  refine tracks_items (fun read => (Phrase.elementsFrom close read).walk) hclose
    (fun read hread => ?_) ?_ hstart hitem hb
  · conv_lhs => rw [Phrase.walk]
    simp [hread]
  · conv_lhs => rw [Phrase.walk]
    simp

theorem tracks_grouped (hinner : Tracks n 1 inner (Phrase.expression 0).walk) :
    Tracks n 2 (Parser.grouped inner) Phrase.grouped.walk := by
  rw [Parser.grouped, Phrase.walk]
  refine tracks_next tracks_newlines fun _ => ?_
  refine tracks_bind (j := 1) hinner (fun e => ?_) (Nat.le_succ n) (Nat.le_refl 2)
  refine tracks_next tracks_newlines fun _ => ?_
  exact tracks_first (tracks_token (by decide)) fun _ => tracks_pure e

/-! ### Operands -/

theorem operand_atEnd {s : Stretch} {pos : Nat} (h : s.Sees pos []) :
    Phrase.operand.walk s.tokens pos = unexpected s.tokens pos := by
  rw [Phrase.walk, bind_of_ok (current_apply h)]
  simp only [List.headD_nil, s.eof_kind]

section

variable {s : Stretch} {pos : Nat} {t : Token} {inside : List Token}
  (hsees : s.Sees pos (t :: inside))
include hsees

theorem matches_operand_unexpected (hstart : Parser.startsOperand t.kind = false) :
    s.Matches (t :: inside).length 1 (Parser.operand inner b (t :: inside))
      (Phrase.operand.walk s.tokens pos) := by
  have hunexpected : s.Matches (t :: inside).length 1 (Parser.unexpected (t :: inside))
      ((unexpected : Walk (Expr Token)) s.tokens pos) :=
    tracks_unexpected s pos (t :: inside) hsees (Nat.le_refl _)
  rw [Parser.operand_unexpected inner b inside hstart, Phrase.walk,
    bind_of_ok (current_apply hsees), List.headD_cons]
  cases hk : t.kind
  all_goals first | exact hunexpected | (rw [hk] at hstart; exact absurd hstart (by decide))

/-- A minus sign: the token behind it may be the mark of the end, which is no number. -/
theorem matches_operand_minus (hk : t.kind = .minus) :
    s.Matches (t :: inside).length 1 (Parser.operand inner b (t :: inside))
      (Phrase.operand.walk s.tokens pos) := by
  have hnext := s.headD_kind (show Kind.number ≠ .eof by decide) inside
  rw [Phrase.walk, bind_of_ok (current_apply hsees)]
  simp only [List.headD_cons, hk]
  rw [bind_of_ok (ahead_apply hsees)]
  cases hp : inside.head?.any (·.kind == .number) with
  | false =>
    rw [hp, beq_eq_false_iff_ne] at hnext
    rw [Parser.operand_minus inner b inside hk hp, if_neg hnext]
    exact .error hsees.lt
  | true =>
    obtain ⟨p, rest, rfl, hq⟩ := Parser.exists_of_head?_any hp
    rw [Parser.operand_negative inner b rest hk hq, List.headD_cons, if_pos hq,
      bind_of_ok (advance_apply hsees), bind_of_ok (current_apply hsees.tail),
      bind_of_ok (advance_apply hsees.tail)]
    exact .ok hsees.tail.tail (by simp)

variable (hinner : Tracks n 1 inner (Phrase.expression 0).walk) (hb : n ≤ b)
  (hlen : (t :: inside).length ≤ n + 1)
include hinner hb hlen

/-- A name: the token behind it may be the mark of the end, which opens no call. -/
theorem matches_operand_name (hk : t.kind = .ident) :
    s.Matches (t :: inside).length 1 (Parser.operand inner b (t :: inside))
      (Phrase.operand.walk s.tokens pos) := by
  have hnext := s.headD_kind (show Kind.lparen ≠ .eof by decide) inside
  rw [Phrase.walk, bind_of_ok (current_apply hsees)]
  simp only [List.headD_cons, hk]
  rw [bind_of_ok (ahead_apply hsees)]
  cases hp : inside.head?.any (·.kind == .lparen) with
  | false =>
    rw [hp, beq_eq_false_iff_ne] at hnext
    rw [Parser.operand_name inner b inside hk hp, if_neg hnext, bind_of_ok (advance_apply hsees)]
    exact .ok hsees.tail (Nat.le_refl _)
  | true =>
    obtain ⟨p, rest, rfl, hq⟩ := Parser.exists_of_head?_any hp
    have hcall := tracks_first (tracks_elements (show Kind.rparen ≠ .eof by decide) hinner hb)
      fun args => tracks_pure (Expr.call t.toIdent args)
    rw [Parser.operand_call inner b rest hk hq, map_eq_pure_bind, List.headD_cons, if_pos hq,
      bind_of_ok (advance_apply hsees)]
    rw [List.length_cons] at hlen ⊢
    exact (hcall.behind hsees.tail (by omega)).mono (by omega)

end

/-- An operand: between its brackets there are fewer tokens than in the operand. -/
theorem tracks_operand (hinner : Tracks n 1 inner (Phrase.expression 0).walk) (hb : n ≤ b) :
    Tracks (n + 1) 1 (Parser.operand inner b) Phrase.operand.walk := by
  intro s pos inside hsees hlen
  cases inside with
  | nil =>
    rw [operand_atEnd hsees]
    exact tracks_unexpected s pos [] hsees hlen
  | cons t inside =>
    cases hstart : Parser.startsOperand t.kind with
    | false => exact matches_operand_unexpected hsees hstart
    | true =>
      simp only [Parser.startsOperand, Bool.or_eq_true, beq_iff_eq, or_assoc] at hstart
      rcases hstart with hk | hk | hk | hk | hk
      · rw [Parser.operand_number inner b inside hk, Phrase.walk, bind_of_ok (current_apply hsees)]
        simp only [List.headD_cons, hk]
        rw [bind_of_ok (advance_apply hsees)]
        exact .ok hsees.tail (Nat.le_refl _)
      · exact matches_operand_name hsees hinner hb hlen hk
      · exact matches_operand_minus hsees hk
      · rw [Parser.operand_group inner b inside hk, Phrase.walk, bind_of_ok (current_apply hsees)]
        simp only [List.headD_cons, hk]
        exact ((tracks_grouped hinner).behind hsees hlen).mono (by omega)
      · have hlist := tracks_first (tracks_elements (show Kind.rbrack ≠ .eof by decide) hinner hb)
          fun es => tracks_pure (Expr.list t es)
        rw [Parser.operand_list inner b inside hk, map_eq_pure_bind, Phrase.walk,
          bind_of_ok (current_apply hsees)]
        simp only [List.headD_cons, hk]
        exact (hlist.behind hsees hlen).mono (Nat.le_succ _)

/-! ### Operators -/

/-- The mark of the end is no operator. -/
theorem operations_apply_stop {s : Stretch} {pos least : Nat} {inside : List Token}
    (h : s.Sees pos inside) (hstop : Parser.StopsAt least inside) (left : Expr Token) :
    (Phrase.operations least left).walk s.tokens pos = some (.ok left, pos) := by
  have hweak : ∀ p, Parser.precedence? (inside.headD s.eof).kind = some p → p < least := by
    intro p hp
    cases inside with
    | nil =>
      rw [List.headD_nil, s.eof_kind] at hp
      cases hp
    | cons op rest => exact hstop op rfl p hp
  rw [Phrase.walk, bind_of_ok (current_apply h)]
  cases hp : Parser.precedence? (inside.headD s.eof).kind with
  | none => rfl
  | some p =>
    show (if p < least then _ else _ : Walk (Expr Token)) _ _ = _
    rw [if_pos (hweak p hp)]
    rfl

theorem tracks_operations {above : Nat → Parser (Expr Token)}
    (habove : ∀ p, Tracks n 1 (above p) (Phrase.expression p).walk) (least : Nat) (hb : n ≤ b)
    (left : Expr Token) :
    Tracks n 0 (Parser.operations above least b left) (Phrase.operations least left).walk := by
  induction n generalizing b left with
  | zero =>
    intro s pos inside hsees hlen
    obtain rfl : inside = [] := List.length_eq_zero_iff.mp (by omega)
    have hstop := Parser.stopsAt_nil least
    rw [Parser.operations_stop above b left hstop, operations_apply_stop hsees hstop]
    exact .ok hsees (Nat.le_refl _)
  | succ n ih =>
    intro s pos inside hsees hlen
    by_cases hstop : Parser.StopsAt least inside
    · rw [Parser.operations_stop above b left hstop, operations_apply_stop hsees hstop]
      exact .ok hsees (Nat.le_refl _)
    · obtain ⟨b, rfl⟩ : ∃ d, b = d + 1 := ⟨b - 1, by omega⟩
      obtain ⟨op, rest, p, rfl, hp, hleast⟩ := Parser.exists_of_not_stopsAt hstop
      rw [Parser.operations_step above b left rest hp hleast, Phrase.walk,
        bind_of_ok (current_apply hsees)]
      simp only [List.headD_cons, hp]
      rw [if_neg (by omega)]
      have habove' := fun p => (habove p).mono (Nat.le_succ n) (Nat.le_refl 1)
      have hoperation := tracks_first (habove' (p + 1)) fun right =>
        ih habove' (show n ≤ b by omega) (.binary op op.text left right)
      exact (hoperation.behind hsees hlen).mono (by omega)

/-- **A walk through an expression does what the parser does.** -/
theorem tracks_expression (hb : n ≤ b) (least : Nat) :
    Tracks n 1 (Parser.expression b least) (Phrase.expression least).walk := by
  induction n generalizing b least with
  | zero =>
    have hoperand : Tracks 0 1 Parser.unexpected Phrase.operand.walk := by
      intro s pos inside hsees hlen
      obtain rfl : inside = [] := List.length_eq_zero_iff.mp (by omega)
      rw [operand_atEnd hsees]
      exact tracks_unexpected s pos [] hsees hlen
    intro s pos inside hsees hlen
    obtain rfl : inside = [] := List.length_eq_zero_iff.mp (by omega)
    have hend : Parser.expression b least [] = (Parser.unexpected >>= pure) [] := by
      cases b <;> rfl
    rw [hend, Phrase.walk]
    exact tracks_needed hoperand _ _ s pos [] hsees hlen
  | succ n ih =>
    obtain ⟨b, rfl⟩ : ∃ d, b = d + 1 := ⟨b - 1, by omega⟩
    -- What stands in brackets or behind an operator has a token less.
    have hinner : ∀ least, Tracks n 1 (Parser.expression b least) (Phrase.expression least).walk :=
      ih (by omega)
    rw [Parser.expression, Phrase.walk]
    refine tracks_bind (j := 0) (tracks_operand (hinner 0) (by omega)) (fun left => ?_)
      (Nat.le_refl _) (Nat.le_refl 1)
    exact tracks_operations hinner least (by omega) left

end Walk

end ListCalc
