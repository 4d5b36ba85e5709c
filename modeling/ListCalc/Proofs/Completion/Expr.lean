/-
What more tokens do to an expression.

`governs_expression` carries `Governs` through all productions of an expression.  An
expression takes no equals sign.  It is stopped by any token but a parenthesis or an
operator, and where it stalls, it can be completed by a number, by what closes its
brackets, or by both.
-/
import ListCalc.Proofs.Completion

namespace ListCalc

open Token

namespace Parser

variable {k m n : Nat} {ts : List Token} {E : Nat → Parser (Expr Token)}

/-- Any kind of token but an equals sign. -/
def notAssign : Kind → Prop := fun κ => κ ≠ .assign

instance : DecidablePred notAssign := fun κ => inferInstanceAs (Decidable (κ ≠ .assign))

/-- The kinds of tokens that do not continue an expression. -/
def endsExpr : Kind → Prop := fun κ => κ ≠ .lparen ∧ precedence? κ = none

instance : DecidablePred endsExpr := fun κ =>
  inferInstanceAs (Decidable (κ ≠ .lparen ∧ precedence? κ = none))

/-- The kinds of tokens that do not continue an expression between brackets. -/
def endsItem : Kind → Prop := fun κ => endsExpr κ ∧ κ ≠ .newline

instance : DecidablePred endsItem := fun κ =>
  inferInstanceAs (Decidable (endsExpr κ ∧ κ ≠ .newline))

/-- The number that stands in for an expression. -/
abbrev zero : Token := numeral "0.0"

/-! ### Brackets -/

/-- An expression with line ends around it. -/
theorem governs_item (hE : Governs notAssign endsExpr 1 n [zero] E) :
    Governs notAssign endsItem 1 n [zero] (fun d => do
      newlines
      let e ← E d
      newlines
      return e) := by
  refine (governs_newlines (by decide)).skip (fun _ => ?_)
    fun _ _ => startsWith_cons (by decide) _
  refine hE.next (l := 0) (fun e => ?_) fun _ h => h.imp fun _ h => h.1
  have hlines : Governs notAssign notNewline 0 n [] (fun _ => do
      newlines
      return e) := (governs_newlines (by decide)).bind_pure fun _ => e
  exact hlines.mono (Nat.le_refl n) (Nat.le_refl 0) (fun _ h => h) (fun _ h => h.2)
    fun h => absurd rfl h

/-- Expressions between brackets. -/
theorem governs_elements {close : Kind} {c : Token} (hc : c.kind = close) (hfill : c ∈ fillers)
    (hclose : close = .rparen ∨ close = .rbrack)
    (hE : Governs notAssign endsExpr 1 n [zero] E) :
    Governs notAssign anyKind 1 n [c] (fun d => elements (E d) close d) := by
  have hkind : close ≠ .newline ∧ notAssign close ∧ endsItem close := by
    rcases hclose with rfl | rfl <;> decide
  refine (governs_newlines (by decide)).skip (fun _ => ?_)
    fun _ _ => startsWith_cons (by rw [hc]; exact hkind.1) _
  exact governs_items hkind.1 hkind.2.1 (by decide) hc hfill hkind.2.2 (governs_item hE)

/-- An expression in parentheses. -/
theorem governs_grouped (hE : Governs notAssign endsExpr 1 n [zero] E) :
    Governs notAssign anyKind 1 n [zero, symbol ')'] (fun d => grouped (E d)) := by
  refine (governs_newlines (by decide)).skip (fun _ => ?_)
    fun _ _ => startsWith_cons (by decide) _
  refine hE.next (l := 1) (fun e => ?_) fun _ _ => startsWith_cons (by decide) _
  refine (governs_newlines (by decide)).skip (fun _ => ?_)
    fun _ _ => startsWith_cons (by decide) _
  exact (governs_token (by decide) (by decide) rfl (by decide +kernel)).bind_pure fun _ => e

/-! ### Operands -/

/-- Where nothing can start, the token is refused. -/
theorem unexpected_cons {α : Type} (t : Token) (ts : List Token) :
    ∃ e, (unexpected : Parser α) (t :: ts) = .error e ∧ e.kind ≠ .cutShort ∧
      e.token? = some t := by
  refine ⟨_, rfl, ?_, rfl⟩
  dsimp only
  split <;> simp

/-- The head of some tokens is not changed by what follows them. -/
theorem head?_any_append {κ : Kind} {us : List Token} (h : ts = [] → StartsWith (· ≠ κ) us) :
    (ts ++ us).head?.any (·.kind == κ) = ts.head?.any (·.kind == κ) := by
  cases ts with
  | cons t ts => rfl
  | nil =>
    cases us with
    | nil => rfl
    | cons u us => exact beq_eq_false_iff_ne.mpr (h rfl u rfl)

theorem operand_refuses (inner : Parser (Expr Token)) (bound : Nat) {t : Token}
    (h : startsOperand t.kind = false) (ts : List Token) :
    ∃ e, operand inner bound (t :: ts) = .error e ∧ e.kind ≠ .cutShort ∧ e.token? = some t := by
  rw [operand_unexpected inner bound ts h]
  exact unexpected_cons t ts

/-- An operand that is read by another parser behind its first tokens. -/
theorem answer_operand_of_rest (front : List Token) {P : Nat → Parser (Expr Token)}
    {v : List Token} {b : Nat} (h : Governs notAssign endsExpr 1 ts.length v P) (hne : front ≠ [])
    (hfront : ∀ t ∈ front, notAssign t.kind) (hb : (front ++ ts).length ≤ b)
    (hP : ∀ us d, operand (expression d 0) d (front ++ us) = P d us) :
    Answer notAssign endsExpr 1 (fun d => operand (expression (d - 1) 0) (d - 1)) (front ++ ts)
      (operand (expression (b - 1) 0) (b - 1) (front ++ ts)) := by
  have hpos := List.length_pos_iff.mpr hne
  rw [List.length_append] at hb
  rw [hP]
  refine (h.answers ts (Nat.le_refl _) (b - 1) (by omega)).transfer front hfront
    (Nat.le_add_left 1 _) fun us _ d hd => ⟨d - 1, ?_, ?_⟩
  · simp only [List.length_append] at hd ⊢
    omega
  · rw [List.append_assoc]
    exact hP (ts ++ us) (d - 1)

/-- An operand starts with a token; what stands between its brackets has fewer tokens. -/
theorem governs_operand
    (hinner : ∀ m < n, Governs notAssign endsExpr 1 m [zero] (fun d => expression d 0)) :
    Governs notAssign endsExpr 1 n [zero]
      (fun d => operand (expression (d - 1) 0) (d - 1)) := by
  have hcompletes : Completes endsExpr 1 (fun d => operand (expression (d - 1) 0) (d - 1)) []
      [zero] := by
    refine ⟨by decide +kernel, Nat.le_refl 1, fun more _ _ d _ => ?_⟩
    exact ⟨_, operand_number _ _ more rfl, trivial⟩
  have hline : endsExpr .newline := by decide
  refine ⟨fun ts hts b hb => ?_, hcompletes, fun _ d => starves_operand _ _⟩
  cases ts with
  | nil =>
    refine .stalled _ rfl rfl (by simp) (fun _ _ => rfl) hcompletes (.inr ?_)
    intro nl hnl more d _
    obtain ⟨e, he, hkind, -⟩ := operand_refuses (expression (d - 1) 0) (d - 1)
      (show startsOperand nl.kind = false by rw [hnl]; rfl) more
    exact ⟨e, he, hkind⟩
  | cons t ts =>
    have hlen : ts.length < n := hts
    cases hstart : startsOperand t.kind with
    | false =>
      obtain ⟨e, he, hkind, htoken⟩ := operand_refuses (expression (b - 1) 0) (b - 1) hstart ts
      rw [he]
      exact .refused hkind htoken List.mem_cons_self
    | true =>
      have htakes : notAssign t.kind := fun hassign => by rw [hassign] at hstart; cases hstart
      have hfront : ∀ u ∈ [t], notAssign u.kind := by simpa using htakes
      simp only [startsOperand, Bool.or_eq_true, beq_iff_eq, or_assoc] at hstart
      rcases hstart with hk | hk | hk | hk | hk
      · rw [operand_number _ _ ts hk]
        refine .read [t] rfl hfront (Nat.le_refl 1) (fun us _ _ d _ => ?_)
          fun h => absurd hline h
        exact operand_number _ _ (ts ++ us) hk
      · -- A name, and a call if a parenthesis comes next.
        cases hp : ts.head?.any (·.kind == .lparen) with
        | false =>
          rw [operand_name _ _ ts hk hp]
          refine .read [t] rfl hfront (Nat.le_refl 1) (fun us _ hstop d _ => ?_)
            fun h => absurd hline h
          refine operand_name _ _ (ts ++ us) hk ((head?_any_append fun hnil => ?_).trans hp)
          exact (hstop hnil).imp fun _ h => h.1
        | true =>
          obtain ⟨p, rest, rfl, hq⟩ := exists_of_head?_any hp
          have hcall := ((governs_elements (c := symbol ')') rfl (by decide +kernel) (.inl rfl)
            (hinner rest.length (Nat.lt_of_succ_lt hlen))).stopped hline).map
            (Expr.call t.toIdent)
          exact answer_operand_of_rest [t, p] hcall (List.cons_ne_nil _ _)
            (by simp [hk, hq, notAssign]) hb fun us d => operand_call _ _ us hk hq
      · -- A minus sign: only a number may follow it.
        cases hp : ts.head?.any (·.kind == .number) with
        | false =>
          rw [operand_minus _ _ ts hk hp]
          exact .refused (fun h => by cases h) rfl List.mem_cons_self
        | true =>
          obtain ⟨p, rest, rfl, hq⟩ := exists_of_head?_any hp
          rw [operand_negative _ _ rest hk hq]
          refine .read [t, p] rfl (by simp [hk, hq, notAssign]) (Nat.le_succ 1)
            (fun us _ _ d _ => ?_) fun h => absurd hline h
          exact operand_negative _ _ (rest ++ us) hk hq
      · have hgroup := (governs_grouped (hinner ts.length hlen)).stopped hline
        exact answer_operand_of_rest [t] hgroup (List.cons_ne_nil _ _) hfront hb
          fun us d => operand_group _ _ us hk
      · have hlist := ((governs_elements (c := symbol ']') rfl (by decide +kernel) (.inr rfl)
          (hinner ts.length hlen)).stopped hline).map (Expr.list t)
        exact answer_operand_of_rest [t] hlist (List.cons_ne_nil _ _) hfront hb
          fun us d => operand_list _ _ us hk

/-! ### Operators -/

/-- Where no operator comes next, nothing more is read, and a token that stops an expression does
not change that. -/
theorem answer_operations_of_stopsAt {least : Nat} (f : Nat → Nat) (left : Expr Token)
    (h : StopsAt least ts) (b : Nat) :
    Answer notAssign endsExpr 0 (fun d => operations (expression (f d)) least d left) ts
      (operations (expression (f b)) least b left ts) := by
  rw [operations_stop _ b left h]
  refine .read [] rfl (by simp) (Nat.zero_le _) (fun us _ hstop d _ => ?_)
    fun hline => absurd (by decide) hline
  refine operations_stop _ d left ?_
  cases ts with
  | cons t ts => exact h
  | nil => exact Ends.stopsAt (hstop rfl) least

theorem completes_operations (least : Nat) (f : Nat → Nat) (left : Expr Token) :
    Completes endsExpr 0 (fun d => operations (expression (f d)) least d left) [] [] := by
  refine ⟨by simp, Nat.le_refl 0, fun more _ hstop d _ => ?_⟩
  exact ⟨left, operations_stop _ d left (Ends.stopsAt hstop least), trivial⟩

/-- Operators with their operands, behind an expression.  The bound of the sequence counts down,
and those of the operands are no less. -/
theorem governs_operations (least : Nat)
    (habove : ∀ m < n, ∀ p, Governs notAssign endsExpr 1 m [zero] (fun d => expression d p))
    {f : Nat → Nat} (hf : ∀ d, d ≤ f d) (left : Expr Token) :
    Governs notAssign endsExpr 0 n []
      (fun d => operations (expression (f d)) least d left) := by
  induction n generalizing f left with
  | zero =>
    refine ⟨fun ts hts b _ => ?_, completes_operations least f left, fun hv => absurd rfl hv⟩
    obtain rfl : ts = [] := List.length_eq_zero_iff.mp (by omega)
    exact answer_operations_of_stopsAt f left (stopsAt_nil least) b
  | succ n ih =>
    refine ⟨fun ts hts b hb => ?_, completes_operations least f left, fun hv => absurd rfl hv⟩
    by_cases hstop : StopsAt least ts
    · exact answer_operations_of_stopsAt f left hstop b
    · obtain ⟨op, rest, p, rfl, hp, hleast⟩ := exists_of_not_stopsAt hstop
      have hop : notAssign op.kind := fun hassign => by rw [hassign] at hp; cases hp
      have hf' : ∀ d, d ≤ f (d + 1) := fun d => Nat.le_of_succ_le (hf (d + 1))
      have habove' := fun m (hm : m < n) => habove m (Nat.lt_succ_of_lt hm)
      -- The right operand and what follows it have one token less than the operator.
      have hnext : Governs notAssign endsExpr 0 n ([zero] ++ []) (fun d => do
          let right ← expression (f (d + 1)) (p + 1)
          operations (expression (f (d + 1))) least d (.binary op op.text left right)) :=
        ((habove n (Nat.lt_succ_self n) (p + 1)).reindex hf').bind
          (fun right => ih habove' hf' (.binary op op.text left right)) (fun _ h => h)
          (Nat.le_add_right n 1) (Nat.zero_le _)
      simp only [List.length_cons] at hts hb
      obtain ⟨b, rfl⟩ : ∃ d, b = d + 1 := ⟨b - 1, by omega⟩
      rw [operations_step _ b left rest hp hleast]
      refine (hnext.answers rest (by omega) b (by omega)).transfer [op] (by simpa using hop)
        (Nat.zero_le _) fun us _ d hd => ?_
      simp only [List.cons_append, List.nil_append, List.length_cons] at hd ⊢
      obtain ⟨d, rfl⟩ : ∃ d', d = d' + 1 := ⟨d - 1, by omega⟩
      exact ⟨d, by omega, operations_step _ d left (rest ++ us) hp hleast⟩

/-- **How an expression fares.**  It takes no equals sign, it is not continued by a token that is
neither a parenthesis nor an operator, and a number completes it from nothing. -/
theorem governs_expression (least : Nat) :
    Governs notAssign endsExpr 1 n [zero] (fun d => expression d least) := by
  induction n using Nat.strongRecOn generalizing least with
  | ind n ih =>
    have hleft := governs_operand fun m hm => ih m hm 0
    have hright := governs_operations (n := n - 1) least (fun m hm p => ih m (by omega) p)
      Nat.le_refl
    refine (hleft.bind_less (j := 1) hright (fun _ h => h) (by omega) (Nat.le_refl 1)
      (Nat.le_refl 1)).congr fun d ts hts => ?_
    cases d with
    | zero =>
      obtain rfl : ts = [] := List.length_eq_zero_iff.mp (by omega)
      rfl
    | succ d => rfl

end Parser

end ListCalc
