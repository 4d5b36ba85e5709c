/-
What more tokens do to a statement, and to a program.

A statement is stopped by a line end.  One with an equals sign is told by it before
it is read, so the tokens do not run out in front of the equals sign, and no other is
needed to complete the statement.

* `answer_statement` — how a statement fares on tokens that are there;
* `fault_of_program` — what a complaint about a program says: a token of it is
  refused, or the tokens run out and others complete them.
-/
import ListCalc.Proofs.Completion.Expr

namespace ListCalc

open Token

namespace Parser

variable {b m n : Nat} {ts : List Token}

theorem governs_wholeExpression :
    Governs anyKind endsExpr 1 n [zero] (fun d => wholeExpression d) :=
  (governs_expression 0).mono (Nat.le_refl n) (Nat.le_refl 1) (fun _ _ => trivial)
    (fun _ h => h) fun h => h

/-! ### Statements with an equals sign -/

/-- The equals sign is not among the tokens that are taken. -/
theorem exists_assign_of_append {front rest : List Token} (h : ∃ t ∈ ts, t.kind = .assign)
    (hsplit : front ++ rest = ts) (hfront : ∀ t ∈ front, notAssign t.kind) :
    ∃ t ∈ rest, t.kind = .assign := by
  obtain ⟨t, ht, hassign⟩ := h
  rw [← hsplit] at ht
  rcases List.mem_append.mp ht with hmem | hmem
  · exact absurd hassign (hfront t hmem)
  · exact ⟨t, hmem, hassign⟩

theorem exists_not_notAssign (h : ∃ t ∈ ts, t.kind = .assign) : ∃ t ∈ ts, ¬ notAssign t.kind := by
  obtain ⟨t, ht, hassign⟩ := h
  exact ⟨t, ht, fun hnot => hnot hassign⟩

/-- An equals sign and an expression. -/
theorem answer_assigned {α : Type} (f : Token → Expr Token → α) (hts : ts ≠ [])
    (hb : ts.length ≤ b) :
    Answer anyKind endsExpr 1 (fun d => do
      let eq ← token .assign
      let value ← wholeExpression d
      return f eq value) ts ((do
      let eq ← token .assign
      let value ← wholeExpression b
      return f eq value) ts) := by
  obtain ⟨t, ts, rfl⟩ := List.exists_cons_of_ne_nil hts
  have hvalue : ∀ eq, Governs anyKind endsExpr 1 (t :: ts).length [zero] (fun d => do
      let value ← wholeExpression d
      return f eq value) := fun eq => governs_wholeExpression.bind_pure (f eq)
  have hsign : Answer anyKind anyKind 1 (fun _ => token .assign) (t :: ts)
      (token .assign (t :: ts)) :=
    answer_of_single trivial _ (by decide) (fun _ _ => rfl) t ts
  exact Governs.bind_answer (j := 0) hb hsign hvalue (fun _ _ _ _ => trivial)
    (Nat.le_add_right _ 1) (Nat.zero_le 1) (Nat.le_add_right 1 1)

/-- What stands in front of an equals sign takes none, so there are tokens behind it. -/
theorem answer_before_assigned {α β : Type} {stop : Kind → Prop} {P : Nat → Parser α}
    {R : α → Nat → Parser β} (hassign : ∃ t ∈ ts, t.kind = .assign) (hb : ts.length ≤ b)
    (hP : Answer notAssign stop 1 P ts (P b ts))
    (hR : ∀ a rest, (∃ t ∈ rest, t.kind = .assign) → rest.length ≤ b →
      Answer anyKind endsExpr 1 (R a) rest (R a b rest)) :
    Answer anyKind endsExpr 1 (fun d => P d >>= fun a => R a d) ts
      ((P b >>= fun a => R a b) ts) := by
  refine hP.bind (j := 0) hb (fun a front rest hsplit hfront _ => ?_)
    (.inr (exists_not_notAssign hassign)) (fun _ _ => trivial) (Nat.zero_le 1)
    (Nat.le_add_right 1 1)
  have hlen : front.length + rest.length = ts.length := by rw [← hsplit, List.length_append]
  exact hR a rest (exists_assign_of_append hassign hsplit hfront) (by omega)

theorem ne_nil_of_exists_assign (h : ∃ t ∈ ts, t.kind = .assign) : ts ≠ [] := by
  obtain ⟨t, ht, -⟩ := h
  exact List.ne_nil_of_mem ht

theorem answer_declaration (h : ∃ t ∈ ts, t.kind = .assign) (hb : ts.length ≤ b) :
    Answer anyKind endsExpr 1 declaration ts (declaration b ts) := by
  have hname : Governs notAssign anyKind 1 ts.length [word "x"]
      (fun _ => ident "variable name") := governs_ident _ (by decide)
  refine answer_before_assigned h hb (hname.answers ts (Nat.le_refl _) b hb) ?_
  exact fun name rest hrest => answer_assigned (fun eq value => Stmt.declare eq name.toIdent value)
    (ne_nil_of_exists_assign hrest)

theorem answer_definition (h : ∃ t ∈ ts, t.kind = .assign) (hb : ts.length ≤ b) :
    Answer anyKind endsExpr 1 definition ts (definition b ts) := by
  have hname : ∀ n what, Governs notAssign anyKind 1 n [word "x"] (fun _ => ident what) :=
    fun n what => governs_ident what (by decide)
  have hparen : ∀ t ts, Answer notAssign anyKind 1 (fun _ => token .lparen) (t :: ts)
      (token .lparen (t :: ts)) :=
    answer_of_single (by decide) _ (by decide) fun _ _ => rfl
  have hparams : ∀ n, Governs notAssign anyKind 1 n [symbol ')']
      (fun d => items (ident "parameter name") .rparen d) := fun n =>
    governs_items (by decide) (by decide) (by decide) rfl (by decide +kernel) trivial (hname n _)
  refine answer_before_assigned h hb ((hname _ _).answers ts (Nat.le_refl _) b hb) ?_
  intro name rest hrest hb'
  obtain ⟨t, rest, rfl⟩ := List.exists_cons_of_ne_nil (ne_nil_of_exists_assign hrest)
  refine answer_before_assigned hrest hb' (hparen t rest) ?_
  intro _ rest hrest hb'
  refine answer_before_assigned hrest hb' ((hparams _).answers rest (Nat.le_refl _) b hb') ?_
  exact fun params rest hrest => answer_assigned
    (fun _ body => Stmt.define name.toIdent (params.map Token.toIdent) body)
    (ne_nil_of_exists_assign hrest)

theorem answer_unpacking (h : ∃ t ∈ ts, t.kind = .assign) (hb : ts.length ≤ b) :
    Answer anyKind endsExpr 1 unpacking ts (unpacking b ts) := by
  refine answer_before_assigned h hb ((governs_expression 0).answers ts (Nat.le_refl _) b hb) ?_
  exact fun names rest hrest => answer_assigned (fun eq values => Stmt.unpack eq names values)
    (ne_nil_of_exists_assign hrest)

/-! ### Bodies and loops -/

theorem stepOf_of_with (var : Token) (b : Nat) {t : Token} (h : t.kind = .withWord)
    (ts : List Token) :
    stepOf var b (t :: ts) = (do
      let _ ← token .withWord
      let _ ← token .stepWord
      wholeExpression b) (t :: ts) := by
  simp [stepOf, nextIs, bind_apply, h]

theorem stepOf_of_ne (var : Token) (b : Nat) (h : StartsWith (· ≠ .withWord) ts) :
    stepOf var b ts = .ok (unitStep var, ts) := by
  have hany : ts.head?.any (·.kind == .withWord) = false := by
    cases ts with
    | nil => rfl
    | cons t ts => exact beq_eq_false_iff_ne.mpr (h t rfl)
  simp [stepOf, nextIs, bind_apply, hany]

/-- The kinds of tokens that do not continue a loop variable and its step. -/
def endsStep : Kind → Prop := fun κ => endsExpr κ ∧ κ ≠ .withWord

instance : DecidablePred endsStep := fun κ =>
  inferInstanceAs (Decidable (endsExpr κ ∧ κ ≠ .withWord))

/-- The step of a loop, which may be left out. -/
theorem governs_stepOf (var : Token) : Governs anyKind endsStep 0 n [] (stepOf var) := by
  have hleft : ∀ us b, StartsWith endsStep us → stepOf var b us = .ok (unitStep var, us) :=
    fun us b hus => stepOf_of_ne var b (hus.imp fun _ h => h.2)
  refine ⟨fun ts hts b hb => ?_, ⟨by simp, Nat.le_refl 0, fun more _ hmore d _ => ?_⟩,
    fun hv => absurd rfl hv⟩
  · by_cases hwith : StartsWith (· ≠ .withWord) ts
    · rw [stepOf_of_ne var b hwith]
      refine .read [] rfl (by simp) (Nat.le_refl 0) (fun us _ hus d _ => ?_)
        fun hline => absurd (by decide) hline
      cases ts with
      | nil => exact hleft us d (hus rfl)
      | cons t ts => exact stepOf_of_ne var d (startsWith_cons (hwith t rfl) _)
    · obtain ⟨t, ts, rfl, ht⟩ : ∃ t us, ts = t :: us ∧ t.kind = .withWord := by
        cases ts with
        | nil => exact absurd startsWith_nil hwith
        | cons t ts =>
          refine ⟨t, ts, rfl, Classical.byContradiction fun hne => ?_⟩
          exact hwith (startsWith_cons hne ts)
      have hstep : Governs anyKind endsExpr 1 n [word "step", zero] (fun d => do
          let _ ← token .stepWord
          wholeExpression d) :=
        (governs_token (by decide) trivial (by decide +kernel) (by simp [fillers])).next
          (fun _ => governs_wholeExpression) fun _ _ _ _ => trivial
      have hwords : Governs anyKind endsExpr 1 n [word "with", word "step", zero] (fun d => do
          let _ ← token .withWord
          let _ ← token .stepWord
          wholeExpression d) :=
        (governs_token (by decide) trivial (by decide +kernel) (by simp [fillers])).next
          (fun _ => hstep) fun _ _ _ _ => trivial
      rw [stepOf_of_with var b ht]
      refine ((hwords.answers (t :: ts) hts b hb).mono (Nat.zero_le 1) (fun _ h => h)
        (fun _ h => h.1) fun _ => by decide).transfer [] (by simp) (Nat.zero_le _) ?_
      exact fun us _ d hd => ⟨d, hd, stepOf_of_with var d ht (ts ++ us)⟩
  · exact ⟨_, hleft more d hmore, trivial⟩

/-- The tokens that close a body from anywhere in it: a comment may stand in front of them. -/
abbrev closing : List Token := [lineEnd, symbol '\x7d']

theorem bodyRest_nil (stmt : Parser (Option (Stmt Token))) (b : Nat) :
    bodyRest stmt b [] = .error ⟨.cutShort, none, Text.quote Kind.rbrace.text⟩ := by
  cases b <;> rfl

section

variable {f : Nat → Nat}

theorem completes_bodyRest (hf : ∀ d, d ≤ f d) :
    Completes anyKind 1 (fun d => bodyRest (statement (f d)) d) [] closing := by
  refine ⟨by decide +kernel, by decide, fun more _ _ d hd => ⟨[], ?_, trivial⟩⟩
  simp only [List.nil_append, List.cons_append, List.length_cons] at hd
  obtain ⟨d, rfl⟩ : ∃ d', d = d' + 2 := ⟨d - 2, by omega⟩
  have hfd := hf (d + 2)
  obtain ⟨m, hm⟩ : ∃ m, f (d + 2) = m + 1 := ⟨f (d + 2) - 1, by omega⟩
  rw [List.nil_append, List.cons_append, List.cons_append, hm,
    bodyRest_newline kind_lineEnd m (d + 1)]
  exact bodyRest_rbrace _ d rfl more

/-- An open body goes on behind a line end. -/
theorem answer_bodyRest_nil (hf : ∀ d, d ≤ f d) (b : Nat) :
    Answer anyKind anyKind 1 (fun d => bodyRest (statement (f d)) d) []
      (bodyRest (statement (f b)) b []) := by
  rw [bodyRest_nil]
  refine .stalled _ rfl rfl (by simp) (fun d _ => bodyRest_nil _ d) (completes_bodyRest hf)
    (.inl fun nl hnl d hd => ?_)
  obtain ⟨d, rfl⟩ : ∃ d', d = d' + 1 := ⟨d - 1, by simp at hd; omega⟩
  have hfd := hf (d + 1)
  obtain ⟨m, hm⟩ : ∃ m, f (d + 1) = m + 1 := ⟨f (d + 1) - 1, by omega⟩
  show bodyRest (statement (f (d + 1))) (d + 1) [nl] = _
  rw [hm, bodyRest_newline hnl m d]
  exact bodyRest_nil _ d

/-- The statements of a body, up to the closing brace.  The bound of the sequence counts down, and
those of the statements are no less. -/
theorem governs_bodyRest (hf : ∀ d, d ≤ f d)
    (hstmt : ∀ ts, ts ≠ [] → ts.length ≤ n → ∀ b, ts.length ≤ b →
      Answer anyKind (· = .newline) 1 statement ts (statement b ts)) :
    Governs anyKind anyKind 1 n closing (fun d => bodyRest (statement (f d)) d) := by
  induction n generalizing f with
  | zero =>
    refine ⟨fun ts hts b _ => ?_, completes_bodyRest hf, fun _ d => ⟨_, bodyRest_nil _ d, rfl⟩⟩
    obtain rfl : ts = [] := List.length_eq_zero_iff.mp (by omega)
    exact answer_bodyRest_nil hf b
  | succ n ih =>
    refine ⟨fun ts hts b hb => ?_, completes_bodyRest hf, fun _ d => ⟨_, bodyRest_nil _ d, rfl⟩⟩
    cases ts with
    | nil => exact answer_bodyRest_nil hf b
    | cons t ts =>
      simp only [List.length_cons] at hb
      obtain ⟨b, rfl⟩ : ∃ d, b = d + 1 := ⟨b - 1, by omega⟩
      by_cases ht : t.kind = .rbrace
      · rw [bodyRest_rbrace _ b ht]
        refine .read [t] rfl (by simp [anyKind]) (Nat.le_refl 1) (fun us _ _ d hd => ?_)
          fun hline => absurd trivial hline
        obtain ⟨d, rfl⟩ : ∃ d', d = d' + 1 := ⟨d - 1, by simp at hd; omega⟩
        exact bodyRest_rbrace _ d ht (ts ++ us)
      · -- A statement, and then the rest of the body with fewer tokens.
        have hf' : ∀ d, d ≤ f (d + 1) := fun d => Nat.le_of_succ_le (hf (d + 1))
        have hrest : ∀ s : Option (Stmt Token), Governs anyKind anyKind 1 n closing (fun d => do
            let rest ← bodyRest (statement (f (d + 1))) d
            return s.toList ++ rest) := fun s =>
          (ih hf' fun us hne hus => hstmt us hne (Nat.le_succ_of_le hus)).bind_pure
            (s.toList ++ ·)
        have hfirst : Answer anyKind (· = .newline) 1 (fun d => statement (f d)) (t :: ts)
            (statement (f (b + 1)) (t :: ts)) := by
          have hfb := hf (b + 1)
          refine (hstmt (t :: ts) (List.cons_ne_nil t ts) hts (f (b + 1)) ?_).transfer []
            (by simp) (by simp) fun us _ d hd => ?_
          · rw [List.length_cons]
            omega
          · have hfd := hf d
            exact ⟨f d, by simp at hd ⊢; omega, rfl⟩
        have hboth := Governs.bind_answer (j := 1) (i := 1) (by simpa using hb) hfirst hrest
          (fun _ _ => endsLine_cons kind_lineEnd _) hts (Nat.le_refl 1) (Nat.le_add_right 1 1)
        rw [bodyRest_step b ht]
        refine hboth.transfer [] (by simp) (by simp) fun us _ d hd => ⟨d, hd, ?_⟩
        simp only [List.nil_append, List.cons_append, List.length_cons] at hd
        obtain ⟨d, rfl⟩ : ∃ d', d = d' + 1 := ⟨d - 1, by omega⟩
        exact bodyRest_step d ht (ts ++ us)

end

theorem body_lbrace (stmt : Parser (Option (Stmt Token))) (b : Nat) {t : Token}
    (h : t.kind = .lbrace) (ts : List Token) : body stmt b (t :: ts) = bodyRest stmt b ts := by
  simp [body, newlines, token, bind_apply, h]

/-- The tokens of a body without statements. -/
abbrev emptyBody : List Token := symbol '\x7b' :: closing

section

variable (hstmt : ∀ ts, ts ≠ [] → ts.length ≤ n → ∀ b, ts.length ≤ b →
  Answer anyKind (· = .newline) 1 statement ts (statement b ts))

include hstmt

theorem governs_body : Governs anyKind anyKind 1 n emptyBody (fun d => body (statement d) d) := by
  refine (governs_newlines trivial).skip (fun _ => ?_) fun _ _ => startsWith_cons (by decide) _
  refine (governs_token (by decide) trivial rfl (by decide +kernel)).next (l := 1) (fun _ => ?_)
    fun _ _ _ _ => trivial
  exact governs_bodyRest Nat.le_refl hstmt

theorem governs_countLoop (first : Token) :
    Governs anyKind anyKind 1 n ([zero, word "to", zero, word "as", word "x"] ++ emptyBody)
      (fun d => countLoop first (statement d) d) := by
  refine governs_wholeExpression.next (l := 1) (fun start => ?_)
    fun _ _ => startsWith_cons (by decide +kernel) _
  refine (governs_token (by decide) trivial (by decide +kernel) (by simp [fillers])).next (l := 1)
    (fun _ => ?_) fun _ _ _ _ => trivial
  refine governs_wholeExpression.next (l := 1) (fun stop => ?_)
    fun _ _ => startsWith_cons (by decide +kernel) _
  refine (governs_token (by decide) trivial (by decide +kernel) (by simp [fillers])).next (l := 1)
    (fun _ => ?_) fun _ _ _ _ => trivial
  refine (governs_ident _ trivial).next (l := 1) (fun var => ?_) fun _ _ _ _ => trivial
  refine (governs_stepOf var).skip (fun step => ?_) fun _ _ => startsWith_cons (by decide) _
  exact (governs_body hstmt).bind_pure (Stmt.count first start stop var.toIdent step)

theorem governs_listLoop (first : Token) :
    Governs anyKind anyKind 1 n ([word "x", word "in", zero] ++ emptyBody)
      (fun d => listLoop first (statement d) d) := by
  refine (governs_ident _ trivial).next (l := 1) (fun var => ?_) fun _ _ _ _ => trivial
  refine (governs_token (by decide) trivial (by decide +kernel) (by simp [fillers])).next (l := 1)
    (fun _ => ?_) fun _ _ _ _ => trivial
  refine governs_wholeExpression.next (l := 1) (fun source => ?_)
    fun _ _ => startsWith_cons (by decide) _
  exact (governs_body hstmt).bind_pure (Stmt.each first var.toIdent source)

end

/-! ### Statements -/

theorem exists_of_assignsOnLine (h : assignsOnLine ts = true) : ∃ t ∈ ts, t.kind = .assign := by
  obtain ⟨t, ht, hassign⟩ := List.any_eq_true.mp h
  exact ⟨t, (List.takeWhile_sublist _).subset ht, beq_iff_eq.mp hassign⟩

theorem Quiet.startsWith {us : List Token} (h : Quiet us) : StartsWith (· ≠ .assign) us := by
  intro t ht
  cases us with
  | nil => cases ht
  | cons u us =>
    obtain rfl := Option.some.inj ht
    intro hassign
    rw [Quiet, assignsOnLine, List.takeWhile_cons_of_pos (by rw [hassign]; rfl), List.any_cons,
      hassign] at h
    cases h

/-- Whether an equals sign comes next does not depend on quiet tokens behind. -/
theorem head?_assign_append (ts : List Token) {us : List Token} (h : Quiet us) :
    (ts ++ us).head?.any (·.kind == .assign) = ts.head?.any (·.kind == .assign) :=
  head?_any_append fun _ => h.startsWith

/-- Neither does whether the line defines a function. -/
theorem defines_append (ts : List Token) {us : List Token} (h : Quiet us) :
    ((ts ++ us).head?.any (·.kind == .lparen) && assignsOnLine (ts ++ us))
      = (ts.head?.any (·.kind == .lparen) && assignsOnLine ts) := by
  rw [assignsOnLine_append_quiet ts h]
  cases ts with
  | nil => rw [show assignsOnLine [] = false from rfl, Bool.and_false, Bool.and_false]
  | cons t ts => rfl

/-- A comment runs to the end of its line. -/
theorem dropWhile_append_line {us : List Token}
    (h : ts.dropWhile (·.kind != .newline) = [] → EndsLine us) :
    (ts ++ us).dropWhile (·.kind != .newline) = ts.dropWhile (·.kind != .newline) ++ us := by
  rw [List.dropWhile_append]
  split
  · next hempty =>
    rw [List.isEmpty_iff] at hempty
    rw [hempty, List.nil_append]
    cases us with
    | nil => rfl
    | cons u us => exact List.dropWhile_cons_of_neg (by rw [h hempty u rfl]; decide)
  · rfl

/-- A statement that is read as a whole by one parser, which an expression ends. -/
theorem answer_statement_of_eq {P : Nat → Parser (Stmt Token)} {t : Token}
    (h : Answer anyKind endsExpr 1 P (t :: ts) (P (b + 1) (t :: ts)))
    (hP : ∀ us, Quiet us → ∀ d,
      statement (d + 1) (t :: (ts ++ us)) = (some <$> P (d + 1)) (t :: (ts ++ us))) :
    Answer anyKind (· = .newline) 1 statement (t :: ts) (statement (b + 1) (t :: ts)) := by
  have hnow := hP [] quiet_nil b
  rw [List.append_nil] at hnow
  rw [hnow]
  have hline : Answer anyKind (· = .newline) 1 (fun d => some <$> P d) (t :: ts)
      ((some <$> P (b + 1)) (t :: ts)) :=
    (h.map some).mono (Nat.le_refl 1) (fun _ h => h) (fun _ h => h ▸ by decide) fun _ => rfl
  refine hline.transfer [] (by simp) (by simp) fun us hus d hd => ?_
  simp only [List.nil_append, List.cons_append, List.length_cons] at hd
  obtain ⟨d, rfl⟩ : ∃ d', d = d' + 1 := ⟨d - 1, by omega⟩
  exact ⟨d + 1, by simpa using hd, hP us hus d⟩

/-- A statement that is read behind its first token by one parser, which nothing continues. -/
theorem answer_statement_of_rest {P : Nat → Parser (Option (Stmt Token))} {v : List Token}
    {t : Token} (h : Governs anyKind anyKind 1 n v P) (hts : ts.length ≤ n) (hb : ts.length ≤ b)
    (hP : ∀ us d, statement (d + 1) (t :: us) = P d us) :
    Answer anyKind (· = .newline) 1 statement (t :: ts) (statement (b + 1) (t :: ts)) := by
  rw [hP]
  refine ((h.stopped (by rfl)).answers ts hts b hb).transfer [t] (by simp [anyKind])
    (Nat.le_succ 1) fun us _ d hd => ?_
  simp only [List.cons_append, List.nil_append, List.length_cons] at hd
  obtain ⟨d, rfl⟩ : ∃ d', d = d' + 1 := ⟨d - 1, by omega⟩
  exact ⟨d, by omega, hP (ts ++ us) d⟩

/-- **How a statement fares** on tokens that are there.  It is stopped by a line end, and where it
stalls, it can be completed without an equals sign. -/
theorem answer_statement (hts : ts ≠ []) (hb : ts.length ≤ b) :
    Answer anyKind (· = .newline) 1 statement ts (statement b ts) := by
  induction hn : ts.length using Nat.strongRecOn generalizing ts b with
  | ind n ih =>
    subst hn
    obtain ⟨t, ts, rfl⟩ := List.exists_cons_of_ne_nil hts
    have hinner : ∀ us, us ≠ [] → us.length ≤ ts.length → ∀ d, us.length ≤ d →
        Answer anyKind (· = .newline) 1 statement us (statement d us) :=
      fun us hne hus d hd => ih us.length (Nat.lt_succ_of_le hus) hne hd rfl
    rw [List.length_cons] at hb
    obtain ⟨b, rfl⟩ : ∃ d, b = d + 1 := ⟨b - 1, by omega⟩
    have hb' : ts.length ≤ b := Nat.le_of_succ_le_succ hb
    have hprint : Answer anyKind endsExpr 1 (printing t) (t :: ts)
        (printing t (b + 1) (t :: ts)) :=
      (governs_wholeExpression.answers (t :: ts) (Nat.le_refl _) (b + 1) hb).map (Stmt.print t)
    have hassigned : assignsOnLine ts = true → ∃ u ∈ t :: ts, u.kind = .assign := by
      intro hline
      obtain ⟨u, hu, hassign⟩ := exists_of_assignsOnLine hline
      exact ⟨u, List.mem_cons_of_mem t hu, hassign⟩
    cases hstart : startsStatement t.kind with
    | false =>
      obtain ⟨e, he, hkind, htoken⟩ := unexpected_cons (α := Option (Stmt Token)) t ts
      rw [statement_unexpected b ts hstart, he]
      exact .refused hkind htoken List.mem_cons_self
    | true =>
      simp only [startsStatement, Bool.or_eq_true, beq_iff_eq, or_assoc] at hstart
      rcases hstart with hk | hk | hk | hk | hk | hk | hk | hk | hk
      · rw [statement_newline b ts hk]
        refine .read [t] rfl (by simp [anyKind]) (Nat.le_refl 1) (fun us _ _ d hd => ?_)
          fun hline => absurd rfl hline
        obtain ⟨d, rfl⟩ : ∃ d', d = d' + 1 := ⟨d - 1, by simp at hd; omega⟩
        exact statement_newline d (ts ++ us) hk
      · rw [statement_comment b ts hk]
        refine .read (t :: ts.takeWhile (·.kind != .newline)) ?_ (by simp [anyKind]) (by simp)
          (fun us _ hus d hd => ?_) fun hline => absurd rfl hline
        · rw [List.cons_append, List.takeWhile_append_dropWhile]
        · obtain ⟨d, rfl⟩ : ∃ d', d = d' + 1 := ⟨d - 1, by simp at hd; omega⟩
          rw [List.cons_append, statement_comment d (ts ++ us) hk, dropWhile_append_line hus]
      · -- A name: the next token and the line decide, whatever quiet tokens follow.
        cases ha : ts.head?.any (·.kind == .assign) with
        | true =>
          obtain ⟨eq, rest, hrest, heq⟩ := exists_of_head?_any ha
          refine answer_statement_of_eq (answer_declaration ⟨eq, by simp [hrest], heq⟩ hb)
            fun us hus d => ?_
          exact statement_declaration d _ hk ((head?_assign_append ts hus).trans ha)
        | false =>
          cases hp : ts.head?.any (·.kind == .lparen) && assignsOnLine ts with
          | true =>
            have hline := (Bool.and_eq_true_iff.mp hp).2
            refine answer_statement_of_eq (answer_definition (hassigned hline) hb)
              fun us hus d => ?_
            exact statement_definition d _ hk ((head?_assign_append ts hus).trans ha)
              ((defines_append ts hus).trans hp)
          | false =>
            refine answer_statement_of_eq hprint fun us hus d => ?_
            exact statement_print_name d _ hk ((head?_assign_append ts hus).trans ha)
              ((defines_append ts hus).trans hp)
      · exact answer_statement_of_eq hprint fun us _ d => statement_print d _ (.inl hk)
      · exact answer_statement_of_eq hprint fun us _ d => statement_print d _ (.inr hk)
      · cases ha : assignsOnLine ts with
        | true =>
          refine answer_statement_of_eq (answer_unpacking (hassigned ha) hb) fun us hus d => ?_
          exact statement_unpacking d _ hk ((assignsOnLine_append_quiet ts hus).trans ha)
        | false =>
          refine answer_statement_of_eq hprint fun us hus d => ?_
          exact statement_print_list d _ hk ((assignsOnLine_append_quiet ts hus).trans ha)
      · exact answer_statement_of_rest ((governs_countLoop hinner t).map some) (Nat.le_refl _) hb'
          fun us d => statement_count d us hk
      · exact answer_statement_of_rest ((governs_listLoop hinner t).map some) (Nat.le_refl _) hb'
          fun us d => statement_each d us hk
      · refine answer_statement_of_rest
          ((governs_bodyRest Nat.le_refl hinner).map (some ∘ Stmt.block t)) (Nat.le_refl _) hb'
          fun us d => ?_
        rw [statement_block d us hk, map_apply, map_apply, body_lbrace _ d hk]

/-! ### Programs -/

/-- A statement in front of a program. -/
theorem program_of_statement {s : Option (Stmt Token)} {rest : List Token}
    (h : statement ts.length ts = .ok (s, rest)) (hrest : rest.length < ts.length) :
    program ts = (program rest).map (s.toList ++ ·) := by
  cases ts with
  | nil => cases hrest
  | cons t ts =>
    rw [program_cons]
    rw [List.length_cons] at h hrest
    rw [h]
    dsimp only
    rw [statements_of_le (Nat.le_of_lt_succ hrest)]
    cases program rest <;> rfl

theorem program_of_statement_error {e : Complaint} (hts : ts ≠ [])
    (h : statement ts.length ts = .error e) : program ts = .error e := by
  obtain ⟨t, ts, rfl⟩ := List.exists_cons_of_ne_nil hts
  rw [program_cons]
  rw [List.length_cons] at h
  rw [h]

/-- What a complaint about a program says: a token of it is refused; or the tokens run out, and
there are others that complete them.  A line end in that place is skipped, so that the complaint
is made again, or it is refused whatever follows. -/
inductive Fault (ts : List Token) (e : Complaint) : Prop where
  | refused {t : Token} (kind : e.kind ≠ .cutShort) (token : e.token? = some t) (mem : t ∈ ts)
  | stalled (us : List Token) (kind : e.kind = .cutShort) (token : e.token? = none)
      (fill : ∀ u ∈ us, u ∈ fillers) (completes : ∃ p, program (ts ++ us) = .ok p)
      (line : (∀ nl : Token, nl.kind = .newline → program (ts ++ [nl]) = .error e) ∨
        ∀ nl : Token, nl.kind = .newline → ∀ more,
          ∃ e', program (ts ++ nl :: more) = .error e' ∧ e'.kind ≠ .cutShort)

/-- The first statement is at fault. -/
theorem fault_of_statement {e : Complaint} (hts : ts ≠ [])
    (h : statement ts.length ts = .error e) : Fault ts e := by
  have hanswer := answer_statement hts (Nat.le_refl ts.length)
  rw [h] at hanswer
  cases hanswer with
  | refused kind token mem => exact .refused kind token mem
  | stalled us kind token _ _ completes line =>
    refine .stalled us kind token completes.fill ?_ ?_
    · obtain ⟨s, hs, -⟩ := completes.reads [] quiet_nil startsWith_nil _ (Nat.le_refl _)
      rw [List.append_nil] at hs
      exact ⟨_, program_of_statement hs (List.length_pos_iff.mpr (by simp [hts]))⟩
    · refine line.imp (fun hskip nl hnl => ?_) fun hrefuse nl hnl more => ?_
      · exact program_of_statement_error (by simp) (hskip nl hnl _ (Nat.le_refl _))
      · obtain ⟨e', he', hkind⟩ := hrefuse nl hnl more _ (Nat.le_refl _)
        exact ⟨e', program_of_statement_error (by simp) he', hkind⟩

/-- A fault behind a statement that is read is one of the whole program. -/
theorem Fault.behind {s : Option (Stmt Token)} {rest : List Token} {e : Complaint}
    (h : Fault rest e) (hmem : ∀ t ∈ rest, t ∈ ts)
    (hnext : ∀ us, Quiet us → program (ts ++ us) = (program (rest ++ us)).map (s.toList ++ ·)) :
    Fault ts e := by
  cases h with
  | refused kind token mem => exact .refused kind token (hmem _ mem)
  | stalled us kind token fill completes line =>
    refine .stalled us kind token fill ?_ ?_
    · obtain ⟨p, hp⟩ := completes
      have hquiet : Quiet (us ++ []) :=
        quiet_append (fun u hu => (kind_ne_of_mem_fillers u (fill u hu)).1) quiet_nil
      rw [List.append_nil] at hquiet
      rw [hnext us hquiet, hp]
      exact ⟨s.toList ++ p, rfl⟩
    · refine line.imp (fun hskip nl hnl => ?_) fun hrefuse nl hnl more => ?_
      · rw [hnext _ (endsLine_cons hnl []).quiet, hskip nl hnl]
        rfl
      · obtain ⟨e', he', hkind⟩ := hrefuse nl hnl more
        rw [hnext _ (endsLine_cons hnl more).quiet, he']
        exact ⟨e', rfl, hkind⟩

/-- **Where a program fails,** a token is refused or the tokens run out. -/
theorem fault_of_program {e : Complaint} (h : program ts = .error e) : Fault ts e := by
  induction hn : ts.length using Nat.strongRecOn generalizing ts with
  | ind n ih =>
    subst hn
    have hts : ts ≠ [] := by
      rintro rfl
      cases h
    have hanswer := answer_statement hts (Nat.le_refl ts.length)
    cases hx : statement ts.length ts with
    | error e' =>
      obtain rfl := Except.error.inj ((program_of_statement_error hts hx).symm.trans h)
      exact fault_of_statement hts hx
    | ok x =>
      obtain ⟨s, rest⟩ := x
      rw [hx] at hanswer
      cases hanswer with
      | read front split taken count again skips =>
        have hlen : front.length + rest.length = ts.length := by
          rw [← split, List.length_append]
        have hrest : program rest = .error e := by
          rw [program_of_statement hx (by omega)] at h
          cases hq : program rest with
          | ok p =>
            rw [hq] at h
            cases h
          | error e' =>
            rw [hq] at h
            exact h
        -- The statements behind the first one are at fault, so some are left.
        have hne : rest ≠ [] := by
          rintro rfl
          cases hrest
        refine (ih rest.length (by omega) hrest rfl).behind (s := s)
          (fun t ht => split ▸ List.mem_append_right front ht) fun us hus => ?_
        refine program_of_statement
          (again us hus (fun hnil => absurd hnil hne) _ (Nat.le_refl _)) ?_
        simp only [List.length_append]
        omega

end Parser

end ListCalc
