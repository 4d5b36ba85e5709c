/-
Walks through statements and programs.

`tracks_statement` takes the relation `Tracks` through all statements; bodies and
loops are parsed with fewer tokens than the statement they belong to.  A statement
is one token at least, so that the loops of a body and of a program end too, and a
walk from the start of a program ends at the first mark of the end
(`program_apply`).
-/
import ListCalc.Proofs.Stmt.Parser
import ListCalc.Proofs.Walk.Expr

namespace ListCalc

namespace Walk

variable {n b : Nat}

/-! ### Lines -/

/-- The line at hand ends at the first mark of the end at the latest. -/
theorem takeWhile_line {eof : Token} (heof : eof.kind = .eof) {inside : List Token}
    (h : ∀ t ∈ inside, t.kind ≠ .eof) (more : List Token) :
    (inside ++ eof :: more).takeWhile (fun t => t.kind != .newline && t.kind != .eof)
      = inside.takeWhile (·.kind != .newline) := by
  induction inside with
  | nil => simp [heof]
  | cons t inside ih =>
    have ht : t.kind ≠ .eof := h t List.mem_cons_self
    rw [List.cons_append, List.takeWhile_cons, List.takeWhile_cons,
      ih fun u hu => h u (List.mem_cons_of_mem t hu), bne_iff_ne.mpr ht, Bool.and_true]

theorem assignsAhead_apply {s : Stretch} {pos : Nat} {inside : List Token}
    (h : s.Sees pos inside) :
    assignsAhead s.tokens pos = some (.ok (Parser.assignsOnLine inside), pos) := by
  rw [assignsAhead, h.split, s.drop_last, takeWhile_line s.eof_kind h.kind_ne]
  rfl

/-- What starts a statement is no equals sign. -/
theorem assignsAhead_apply_cons {s : Stretch} {pos : Nat} {t : Token} {inside : List Token}
    (h : s.Sees pos (t :: inside)) (hline : t.kind ≠ .newline) (hassign : t.kind ≠ .assign) :
    assignsAhead s.tokens pos = some (.ok (Parser.assignsOnLine inside), pos) := by
  rw [assignsAhead_apply h, Parser.assignsOnLine_cons hline, beq_false_of_ne hassign,
    Bool.false_or]

/-- Reads to the end of the line. -/
def restOfLine : Parser Unit := fun ts => .ok ((), ts.dropWhile (·.kind != .newline))

theorem tracks_skipComment : Tracks n 0 restOfLine Phrase.comment.walk := by
  intro s pos inside hsees hlen
  clear hlen
  show s.Matches _ _ (.ok ((), inside.dropWhile (·.kind != .newline))) _
  induction inside generalizing pos with
  | nil =>
    rw [Phrase.walk, bind_of_ok (current_apply hsees), List.headD_nil, if_pos (.inr s.eof_kind)]
    exact .ok hsees (Nat.le_refl _)
  | cons t inside ih =>
    have ht : t.kind ≠ .eof := hsees.kind_ne t List.mem_cons_self
    rw [Phrase.walk, bind_of_ok (current_apply hsees), List.headD_cons, List.dropWhile_cons]
    by_cases hline : t.kind = .newline
    · rw [if_neg (by rw [hline]; decide), if_pos (.inl hline)]
      exact .ok hsees (Nat.le_refl _)
    · rw [if_pos (bne_iff_ne.mpr hline), if_neg (by simp [hline, ht]),
        bind_of_ok (advance_apply hsees)]
      exact (ih (pos + 1) hsees.tail).mono (by rw [List.length_cons]; omega)

theorem matches_skipComment {s : Stretch} {pos : Nat} {t : Token} {inside : List Token}
    (hsees : s.Sees pos (t :: inside)) (hk : t.kind = .comment) :
    s.Matches (t :: inside).length 1 (restOfLine inside) (Phrase.comment.walk s.tokens pos) := by
  rw [Phrase.walk, bind_of_ok (current_apply hsees), List.headD_cons,
    if_neg (by rw [hk]; decide)]
  exact tracks_skipComment.behind hsees (Nat.le_refl _)

/-! ### Declarations and prints -/

theorem tracks_declaration (hb : n ≤ b) : Tracks n 1 (Parser.declaration b) declaration := by
  refine tracks_first (tracks_ident _) fun name => ?_
  refine tracks_next (tracks_token (by decide)) fun eq => ?_
  refine tracks_next (tracks_expression hb 0) fun value => ?_
  exact tracks_pure (Stmt.declare eq name.toIdent value)

theorem tracks_params (hb : n ≤ b) :
    Tracks n 1 (Parser.items (Parser.ident "parameter name") .rparen b)
      (Phrase.paramsFrom []).walk := by
  refine tracks_items (fun read => (Phrase.paramsFrom read).walk) (by decide)
    (fun read hread => ?_) ?_ (tracks_ident _) (tracks_ident _) hb
  · rw [Phrase.walk]
    simp [hread]
  · rw [Phrase.walk]
    simp

theorem tracks_definition (hb : n ≤ b) : Tracks n 1 (Parser.definition b) definition := by
  refine tracks_first (tracks_ident _) fun name => ?_
  refine tracks_next (tracks_token (by decide)) fun _ => ?_
  refine tracks_next (tracks_params hb) fun params => ?_
  refine tracks_next (tracks_token (by decide)) fun _ => ?_
  refine tracks_next (tracks_expression hb 0) fun body => ?_
  exact tracks_pure (Stmt.define name.toIdent (params.map Token.toIdent) body)

theorem tracks_unpacking (hb : n ≤ b) : Tracks n 1 (Parser.unpacking b) unpacking := by
  refine tracks_first (tracks_expression hb 0) fun names => ?_
  refine tracks_next (tracks_token (by decide)) fun eq => ?_
  refine tracks_next (tracks_expression hb 0) fun values => ?_
  exact tracks_pure (Stmt.unpack eq names values)

/-- The first token of what is printed is the one at the cursor. -/
theorem matches_printing {s : Stretch} {pos : Nat} {t : Token} {inside : List Token}
    (hsees : s.Sees pos (t :: inside)) (hb : (t :: inside).length ≤ b) :
    s.Matches (t :: inside).length 1 (Parser.printing t b (t :: inside))
      (printing s.tokens pos) := by
  rw [Parser.printing, map_eq_pure_bind, printing, bind_of_ok (current_apply hsees)]
  refine tracks_first (tracks_expression hb 0) (fun e => ?_) s pos _ hsees (Nat.le_refl _)
  exact tracks_pure (Stmt.print t e)

/-! ### Bodies and loops -/

/-- What has been read comes in front of what a parser reads. -/
theorem append_bind_append {σ : Type} (p : Parser (Option σ)) (q : Parser (List σ))
    (read : List σ) :
    (read ++ ·) <$> (do let s ← p; let rest ← q; return s.toList ++ rest)
      = (do let s ← p; ((read ++ s.toList) ++ ·) <$> q) := by
  simp

section

variable {stmt : Parser (Option (Stmt Token))}

theorem matches_bodyFrom_nil {s : Stretch} {pos : Nat} (h : s.Sees pos [])
    (read : List (Stmt Token)) (b : Nat) :
    s.Matches 0 1 (((read ++ ·) <$> Parser.bodyRest stmt b) [])
      ((Clause.bodyFrom read).walk s.tokens pos) := by
  have hend : ((read ++ ·) <$> Parser.bodyRest stmt b) []
      = .error ⟨.cutShort, none, Text.quote Kind.rbrace.text⟩ := by
    cases b <;> rfl
  have heof := s.eof_kind
  rw [hend, Clause.walk, bind_of_ok (current_apply h), List.headD_nil,
    if_neg (by rw [heof]; decide), if_pos heof]
  exact .error h.lt

theorem tracks_bodyFrom (hstmt : Tracks n 1 stmt Clause.statement.walk) (hb : n ≤ b)
    (read : List (Stmt Token)) :
    Tracks n 1 ((read ++ ·) <$> Parser.bodyRest stmt b) (Clause.bodyFrom read).walk := by
  induction n generalizing b read with
  | zero =>
    intro s pos inside hsees hlen
    obtain rfl : inside = [] := List.length_eq_zero_iff.mp (by omega)
    exact matches_bodyFrom_nil hsees read b
  | succ n ih =>
    intro s pos inside hsees hlen
    obtain ⟨b, rfl⟩ : ∃ d, b = d + 1 := ⟨b - 1, by omega⟩
    cases inside with
    | nil => exact matches_bodyFrom_nil hsees read (b + 1)
    | cons t inside =>
      have ht : t.kind ≠ .eof := hsees.kind_ne t List.mem_cons_self
      rw [Clause.walk, bind_of_ok (current_apply hsees), List.headD_cons]
      by_cases hk : t.kind = .rbrace
      · rw [Parser.map_apply, Parser.bodyRest_rbrace stmt b hk, if_pos hk,
          bind_of_ok (advance_apply hsees)]
        dsimp only
        rw [List.append_nil]
        exact .ok hsees.tail (Nat.le_refl _)
      · -- A statement is a token at least, so fewer are left for the others.
        have hrest := fun s : Option (Stmt Token) =>
          ih (hstmt.mono (Nat.le_succ n) (Nat.le_refl 1)) (show n ≤ b by omega) (read ++ s.toList)
        have hstep := tracks_bind hstmt hrest (Nat.le_refl _) (Nat.le_succ 1)
        rw [if_neg hk, if_neg ht]
        rw [← append_bind_append] at hstep
        have hbody := hstep s pos (t :: inside) hsees hlen
        rwa [Parser.map_apply, ← Parser.bodyRest_step b hk, ← Parser.map_apply] at hbody

theorem tracks_body (hstmt : Tracks n 1 stmt Clause.statement.walk) (hb : n ≤ b) :
    Tracks (n + 1) 1 (Parser.body stmt b) Clause.body.walk := by
  have hrest : Tracks n 1 (Parser.bodyRest stmt b) (Clause.bodyFrom []).walk := by
    have hrest := tracks_bodyFrom hstmt hb []
    rwa [show (([] ++ ·) : List (Stmt Token) → _) = id from rfl, id_map] at hrest
  rw [Parser.body, Clause.walk]
  refine tracks_next tracks_newlines fun _ => ?_
  exact tracks_bind (tracks_token (by decide)) (fun _ => hrest) (Nat.le_refl _) (Nat.le_succ 1)

theorem tracks_stepOf (hb : n ≤ b) (var : Token) :
    Tracks n 0 (Parser.stepOf var b) (stepOf var) := by
  refine tracks_ifNext (j := 1) (by decide) ?_ (tracks_pure (Parser.unitStep var)) (Nat.le_succ n)
    (Nat.zero_le 2)
  exact tracks_next (tracks_token (by decide)) fun _ => tracks_expression hb 0

variable {s : Stretch} {pos : Nat} {t : Token} {inside : List Token}

theorem matches_countLoop (hstmt : Tracks n 1 stmt Clause.statement.walk) (hb : n ≤ b)
    (hsees : s.Sees pos (t :: inside)) (hlen : (t :: inside).length ≤ n + 1) :
    s.Matches (t :: inside).length 1 (Parser.countLoop t stmt b inside)
      (Clause.countLoop.walk s.tokens pos) := by
  rw [Clause.walk, bind_of_ok (current_apply hsees)]
  refine (Tracks.behind (k := 1) ?_ hsees hlen).mono (Nat.le_succ _)
  refine tracks_first (tracks_expression hb 0) fun start => ?_
  refine tracks_next (tracks_token (by decide)) fun _ => ?_
  refine tracks_next (tracks_expression hb 0) fun stop => ?_
  refine tracks_next (tracks_token (by decide)) fun _ => ?_
  refine tracks_next (tracks_ident _) fun var => ?_
  refine tracks_next (tracks_stepOf hb var) fun step => ?_
  refine tracks_next ((tracks_body hstmt hb).mono (Nat.le_succ n) (Nat.le_refl 1)) fun stmts => ?_
  exact tracks_pure (Stmt.count t start stop var.toIdent step stmts)

theorem matches_listLoop (hstmt : Tracks n 1 stmt Clause.statement.walk) (hb : n ≤ b)
    (hsees : s.Sees pos (t :: inside)) (hlen : (t :: inside).length ≤ n + 1) :
    s.Matches (t :: inside).length 1 (Parser.listLoop t stmt b inside)
      (Clause.listLoop.walk s.tokens pos) := by
  rw [Clause.walk, bind_of_ok (current_apply hsees)]
  refine (Tracks.behind (k := 1) ?_ hsees hlen).mono (Nat.le_succ _)
  refine tracks_first (tracks_ident _) fun var => ?_
  refine tracks_next (tracks_token (by decide)) fun _ => ?_
  refine tracks_next (tracks_expression hb 0) fun source => ?_
  refine tracks_next ((tracks_body hstmt hb).mono (Nat.le_succ n) (Nat.le_refl 1)) fun stmts => ?_
  exact tracks_pure (Stmt.each t var.toIdent source stmts)

end

/-! ### Statements -/

theorem matches_statement_nil {s : Stretch} {pos : Nat} (h : s.Sees pos []) (b : Nat) :
    s.Matches 0 1 (Parser.statement b []) (Clause.statement.walk s.tokens pos) := by
  have hend : Parser.statement b [] = Parser.unexpected [] := by
    cases b <;> rfl
  rw [hend, Clause.walk, bind_of_ok (current_apply h)]
  simp only [List.headD_nil, s.eof_kind]
  exact tracks_unexpected s pos [] h (Nat.le_refl 0)

section

variable {s : Stretch} {pos : Nat} {t : Token} {inside : List Token}
  (hsees : s.Sees pos (t :: inside))
include hsees

theorem matches_statement_unexpected (hstart : Parser.startsStatement t.kind = false) :
    s.Matches (t :: inside).length 1 (Parser.statement (b + 1) (t :: inside))
      (Clause.statement.walk s.tokens pos) := by
  have hunexpected : s.Matches (t :: inside).length 1 (Parser.unexpected (t :: inside))
      ((unexpected : Walk (Option (Stmt Token))) s.tokens pos) :=
    tracks_unexpected s pos (t :: inside) hsees (Nat.le_refl _)
  rw [Parser.statement_unexpected b inside hstart, Clause.walk, bind_of_ok (current_apply hsees),
    List.headD_cons]
  cases hk : t.kind
  all_goals first | exact hunexpected | (rw [hk] at hstart; exact absurd hstart (by decide))

variable (hb : (t :: inside).length ≤ b + 1)
include hb

/-- A name: the token behind it may be the mark of the end, which is neither an equals sign nor a
parenthesis. -/
theorem matches_statement_name (hk : t.kind = .ident) :
    s.Matches (t :: inside).length 1 (Parser.statement (b + 1) (t :: inside))
      (Clause.statement.walk s.tokens pos) := by
  have hassign := s.headD_kind (show Kind.assign ≠ .eof by decide) inside
  have hparen := s.headD_kind (show Kind.lparen ≠ .eof by decide) inside
  have hline := assignsAhead_apply_cons hsees (by rw [hk]; decide) (by rw [hk]; decide)
  rw [Clause.walk, bind_of_ok (current_apply hsees)]
  simp only [List.headD_cons, hk]
  rw [bind_of_ok (ahead_apply hsees)]
  cases ha : inside.head?.any (·.kind == .assign) with
  | true =>
    rw [ha, beq_iff_eq] at hassign
    rw [Parser.statement_declaration b inside hk ha, if_pos hassign]
    exact (tracks_declaration hb s pos _ hsees (Nat.le_refl _)).map some
  | false =>
    rw [ha, beq_eq_false_iff_ne] at hassign
    rw [if_neg hassign, bind_of_ok (ahead_apply hsees), bind_of_ok hline]
    simp only [← beq_iff_eq (a := (inside.headD s.eof).kind), hparen, ← Bool.and_eq_true]
    cases hp : inside.head?.any (·.kind == .lparen) && Parser.assignsOnLine inside with
    | true =>
      rw [Parser.statement_definition b inside hk ha hp, if_pos rfl]
      exact (tracks_definition hb s pos _ hsees (Nat.le_refl _)).map some
    | false =>
      rw [Parser.statement_print_name b inside hk ha hp, if_neg Bool.false_ne_true]
      exact (matches_printing hsees hb).map some

/-- A list: an equals sign makes it an unpacking if it comes before the mark of the end. -/
theorem matches_statement_list (hk : t.kind = .lbrack) :
    s.Matches (t :: inside).length 1 (Parser.statement (b + 1) (t :: inside))
      (Clause.statement.walk s.tokens pos) := by
  have hline := assignsAhead_apply_cons hsees (by rw [hk]; decide) (by rw [hk]; decide)
  rw [Clause.walk, bind_of_ok (current_apply hsees)]
  simp only [List.headD_cons, hk]
  rw [bind_of_ok hline]
  cases ha : Parser.assignsOnLine inside with
  | true =>
    rw [Parser.statement_unpacking b inside hk ha, if_pos rfl]
    exact (tracks_unpacking hb s pos _ hsees (Nat.le_refl _)).map some
  | false =>
    rw [Parser.statement_print_list b inside hk ha, if_neg Bool.false_ne_true]
    exact (matches_printing hsees hb).map some

end

/-- **A walk through a statement does what the parser does**, and moves the cursor. -/
theorem tracks_statement (hb : n ≤ b) : Tracks n 1 (Parser.statement b) Clause.statement.walk := by
  induction n generalizing b with
  | zero =>
    intro s pos inside hsees hlen
    obtain rfl : inside = [] := List.length_eq_zero_iff.mp (by omega)
    exact matches_statement_nil hsees b
  | succ n ih =>
    intro s pos inside hsees hlen
    obtain ⟨b, rfl⟩ : ∃ d, b = d + 1 := ⟨b - 1, by omega⟩
    cases inside with
    | nil => exact matches_statement_nil hsees (b + 1)
    | cons t inside =>
      have hnb : n ≤ b := Nat.le_of_succ_le_succ hb
      have hlen' : (t :: inside).length ≤ b + 1 := Nat.le_trans hlen hb
      -- The body of a statement has a token less than the statement.
      have hinner : Tracks n 1 (Parser.statement b) Clause.statement.walk := ih hnb
      have hprint := (matches_printing hsees hlen').map some
      cases hstart : Parser.startsStatement t.kind with
      | false => exact matches_statement_unexpected hsees hstart
      | true =>
        simp only [Parser.startsStatement, Bool.or_eq_true, beq_iff_eq, or_assoc] at hstart
        rcases hstart with hk | hk | hk | hk | hk | hk | hk | hk | hk
        · rw [Parser.statement_newline b inside hk, Clause.walk, bind_of_ok (current_apply hsees)]
          simp only [List.headD_cons, hk]
          rw [bind_of_ok (advance_apply hsees)]
          exact .ok hsees.tail (Nat.le_refl _)
        · rw [Parser.statement_comment b inside hk, Clause.walk, bind_of_ok (current_apply hsees)]
          simp only [List.headD_cons, hk]
          rw [← map_eq_pure_bind]
          exact (matches_skipComment hsees hk).map fun _ => none
        · exact matches_statement_name hsees hlen' hk
        · rw [Parser.statement_print b inside (.inl hk), Clause.walk,
            bind_of_ok (current_apply hsees)]
          simp only [List.headD_cons, hk]
          exact hprint
        · rw [Parser.statement_print b inside (.inr hk), Clause.walk,
            bind_of_ok (current_apply hsees)]
          simp only [List.headD_cons, hk]
          exact hprint
        · exact matches_statement_list hsees hlen' hk
        · rw [Parser.statement_count b inside hk, Clause.walk, bind_of_ok (current_apply hsees)]
          simp only [List.headD_cons, hk]
          exact (matches_countLoop hinner hnb hsees hlen).map some
        · rw [Parser.statement_each b inside hk, Clause.walk, bind_of_ok (current_apply hsees)]
          simp only [List.headD_cons, hk]
          exact (matches_listLoop hinner hnb hsees hlen).map some
        · have hblock := tracks_first (tracks_body hinner hnb) fun stmts =>
            tracks_pure (some (Stmt.block t stmts))
          rw [Parser.statement_block b inside hk, Clause.walk, bind_of_ok (current_apply hsees),
            map_eq_pure_bind]
          simp only [List.headD_cons, hk]
          exact hblock s pos (t :: inside) hsees hlen

/-! ### Programs -/

theorem nextIs_eof_apply {s : Stretch} {pos : Nat} {inside : List Token} (h : s.Sees pos inside) :
    nextIs .eof s.tokens pos = some (.ok inside.isEmpty, pos) := by
  have hkind : ((inside.headD s.eof).kind == .eof) = inside.isEmpty := by
    cases inside with
    | nil => exact beq_iff_eq.mpr s.eof_kind
    | cons t inside => exact beq_false_of_ne (h.kind_ne t List.mem_cons_self)
  rw [nextIs, bind_of_ok (current_apply h), ← hkind]
  rfl

theorem matches_programFrom_nil {s : Stretch} {pos : Nat} (h : s.Sees pos [])
    (read : Program Token) (b : Nat) :
    s.Matches 0 0 (((read ++ ·) <$> Parser.statements b) [])
      ((Clause.programFrom read).walk s.tokens pos) := by
  have hend : ((read ++ ·) <$> Parser.statements b) [] = .ok (read, []) := by
    cases b <;> exact congrArg (fun p => Except.ok (p, [])) (List.append_nil read)
  rw [hend, Clause.walk, bind_of_ok (nextIs_eof_apply h)]
  exact .ok h (Nat.le_refl _)

theorem tracks_programFrom (hb : n ≤ b) (read : Program Token) :
    Tracks n 0 ((read ++ ·) <$> Parser.statements b) (Clause.programFrom read).walk := by
  induction n generalizing b read with
  | zero =>
    intro s pos inside hsees hlen
    obtain rfl : inside = [] := List.length_eq_zero_iff.mp (by omega)
    exact matches_programFrom_nil hsees read b
  | succ n ih =>
    intro s pos inside hsees hlen
    obtain ⟨b, rfl⟩ : ∃ d, b = d + 1 := ⟨b - 1, by omega⟩
    cases inside with
    | nil => exact matches_programFrom_nil hsees read (b + 1)
    | cons t inside =>
      have hstep := tracks_bind (tracks_statement hb)
        (fun s => ih (show n ≤ b by omega) (read ++ s.toList)) (Nat.le_refl _) (Nat.zero_le 1)
      rw [← append_bind_append] at hstep
      rw [Clause.walk, bind_of_ok (nextIs_eof_apply hsees), Parser.map_apply,
        Parser.statements_cons, ← Parser.map_apply]
      exact hstep s pos (t :: inside) hsees hlen

/-- A walk from the start reads the program before the first mark of the end, and stops there. -/
theorem program_apply {s : Stretch} {inside : List Token} (h : s.Sees 0 inside) :
    (∃ p, Parser.program inside = .ok p ∧ program s.tokens 0 = some (.ok p, inside.length)) ∨
    (∃ c pos, Parser.program inside = .error c ∧ pos < s.tokens.length ∧
      program s.tokens 0 = some (.error (.error (c.toError s.eof)), pos)) := by
  have hmatches := tracks_programFrom (Nat.le_refl inside.length) [] s 0 inside h (Nat.le_refl _)
  rw [show (([] ++ ·) : Program Token → _) = id from rfl, id_map,
    Parser.statements_of_le (Nat.le_refl inside.length)] at hmatches
  rw [program]
  generalize Parser.program inside = x, (Clause.programFrom []).walk s.tokens 0 = y at hmatches
  cases x with
  | ok p =>
    cases hmatches with
    | @ok _ _ pos sees _ =>
      have hlast : pos = s.last := sees.reach
      have hpos : pos = inside.length := by
        rw [hlast, ← h.reach, Nat.zero_add]
      exact .inl ⟨p, rfl, by rw [hpos]⟩
  | error c =>
    cases hmatches with
    | error lt => exact .inr ⟨c, _, rfl, lt, rfl⟩

end Walk

end ListCalc
