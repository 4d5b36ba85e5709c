/-
Spelled statements are read back, or not at all.

A legible statement is read back off its spelling, up to marks, if neither it nor
one inside it is of one of the two forms that are not read again.  Otherwise the
parser gives up: at once where a number behind a minus sign is to be printed, and
at the equals sign where an unpacking has an operator on its left.

* `body_settled` — bodies fare as the statements in them do;
* `settled` — every legible statement is read back or balked at.
-/
import ListCalc.Proofs.Spelling.Expr
import ListCalc.Proofs.Stmt.Parser

namespace ListCalc

open Token

variable {τ : Type}

namespace Parser

variable {α β : Type} {ts mid rest : List Token}

/-! ### Lines -/

/-- The line ends here. -/
def EndsLine (ts : List Token) : Prop := ∀ t ∈ ts.head?, t.kind = .newline

theorem endsLine_nil : EndsLine [] := by simp [EndsLine]

theorem endsLine_lineEnd (ts : List Token) : EndsLine (lineEnd :: ts) := by simp [EndsLine, lineEnd]

theorem EndsLine.ends (h : EndsLine ts) : Ends ts := by
  intro t ht
  rw [h t ht]
  decide

theorem EndsLine.head?_any (h : EndsLine ts) {k : Kind} (hk : k ≠ .newline) :
    ts.head?.any (·.kind == k) = false := by
  cases ts with
  | nil => rfl
  | cons t ts =>
    have ht := h t rfl
    simp [ht, hk.symm]

theorem EndsLine.assignsOnLine (h : EndsLine ts) : assignsOnLine ts = false := by
  cases ts with
  | nil => rfl
  | cons t ts =>
    have ht := h t rfl
    simp [Parser.assignsOnLine, ht]

theorem assignsOnLine_append (h : ∀ t ∈ ts, Flat t) (us : List Token) :
    assignsOnLine (ts ++ us) = assignsOnLine us := by
  have hline : ∀ t ∈ ts, (t.kind != .newline) = true := fun t ht => bne_iff_ne.mpr (h t ht).1
  have hassign : ts.any (·.kind == .assign) = false := by
    rw [List.any_eq_false]
    exact fun t ht => by simpa using (h t ht).2
  rw [assignsOnLine, List.takeWhile_append_of_pos hline, List.any_append, hassign]
  rfl

/-! ### Statements on one line -/

/-- The statement is read back off its spelling, in front of a line end. -/
def StmtReadsBack (s : Stmt τ) : Prop :=
  ∀ n rest, EndsLine rest → (s.spell ++ rest).length ≤ n →
    Reads (statement n) (s.spell ++ rest) rest (fun o => o.map Stmt.bare = some s.bare)

theorem reads_wholeExpression {e : Expr τ} (he : e.Legible) {b : Nat}
    (hb : (e.spell ++ rest).length ≤ b) (hrest : Ends rest) :
    Reads (wholeExpression b) (e.spell ++ rest) rest (·.bare = e.bare) :=
  (reads_spell e he).reads_expression he hb hrest.head?_any (hrest.stopsAt 0)

theorem reads_declare {m : τ} {x : Ident τ} {e : Expr τ} (h : (Stmt.declare m x e).Legible) :
    StmtReadsBack (Stmt.declare m x e) := by
  intro n rest hrest hn
  rw [Stmt.spell, List.cons_append, List.cons_append] at hn ⊢
  obtain ⟨n, rfl⟩ : ∃ d, n = d + 1 := ⟨n - 1, by simp at hn; omega⟩
  rw [Reads, statement_declaration n _ (kind_word h.1) rfl]
  have hread : Reads (declaration (n + 1)) (word x.name :: symbol '=' :: (e.spell ++ rest)) rest
      (·.bare = (Stmt.declare m x e).bare) := by
    refine reads_bind (reads_ident (kind_word h.1) _ _) fun _ ht => ?_
    refine reads_bind (reads_symbol '=' _) fun _ _ => ?_
    refine reads_bind (reads_wholeExpression h.2 (by simp at hn ⊢; omega) hrest.ends)
      fun e' he' => reads_pure ?_
    rw [ht]
    exact congrArg (Stmt.declare () _) he'
  exact reads_map hread fun s' hs' => congrArg some hs'

/-- The parameters of a definition. -/
theorem reads_params {params : List (Ident τ)} (h : ∀ p ∈ params, IsName p.name) {b : Nat}
    (hb : (commas (params.map fun p => [word p.name]) ++ symbol ')' :: rest).length ≤ b) :
    Reads (items (ident "parameter name") .rparen b)
      (commas (params.map fun p => [word p.name]) ++ symbol ')' :: rest) rest
      (fun ts => ts.map (Ident.map (fun _ => ()) ∘ Token.toIdent)
        = params.map (Ident.map fun _ => ())) := by
  have hfirst : ∀ p ∈ params, ∃ t ts, [word p.name] = t :: ts ∧ t.kind ≠ .rparen :=
    fun p hp => ⟨word p.name, [], rfl, by rw [kind_word (h p hp)]; decide⟩
  have hitem : ∀ p ∈ params, ∀ u us, (u.kind = .comma ∨ u.kind = .rparen) →
      ([word p.name] ++ u :: us).length ≤ b →
      Reads (ident "parameter name") ([word p.name] ++ u :: us) (u :: us)
        (fun t => (Ident.map (fun _ => ()) ∘ Token.toIdent) t = p.map fun _ => ()) :=
    fun p hp u us _ _ => ⟨word p.name, if_pos (kind_word (h p hp)), rfl⟩
  exact reads_items (c := symbol ')') rfl (by decide) hfirst hitem hb hb

theorem reads_define {f : Ident τ} {params : List (Ident τ)} {e : Expr τ}
    (h : (Stmt.define f params e).Legible) : StmtReadsBack (Stmt.define f params e) := by
  intro n rest hrest hn
  have htokens : (Stmt.define f params e).spell ++ rest = word f.name :: symbol '(' ::
      (commas (params.map fun p => [word p.name]) ++ symbol ')' :: symbol '=' ::
        (e.spell ++ rest)) := by
    simp [Stmt.spell]
  rw [htokens] at hn ⊢
  obtain ⟨n, rfl⟩ : ∃ d, n = d + 1 := ⟨n - 1, by simp at hn; omega⟩
  have hparams : ∀ ts ∈ params.map (fun p => [word p.name]), ∀ t ∈ ts, Flat t := by
    intro ts hts
    obtain ⟨p, hp, rfl⟩ := List.mem_map.mp hts
    simpa using flat_word (h.2.1 p hp)
  -- The equals sign behind the parameters tells a definition from a call.
  have hline : assignsOnLine (symbol '(' :: (commas (params.map fun p => [word p.name]) ++
      symbol ')' :: symbol '=' :: (e.spell ++ rest))) = true := by
    have hflat : ∀ t ∈ symbol '(' :: (commas (params.map fun p => [word p.name]) ++
        [symbol ')']), Flat t := by
      simp only [List.forall_mem_cons, List.forall_mem_append]
      exact ⟨⟨by decide, by decide⟩, flat_commas hparams, ⟨by decide, by decide⟩, by simp⟩
    have happend := assignsOnLine_append hflat (symbol '=' :: (e.spell ++ rest))
    simp only [List.cons_append, List.append_assoc, List.nil_append] at happend
    rw [happend]
    rfl
  rw [Reads, statement_definition n _ (kind_word h.1) rfl (by rw [hline]; rfl)]
  have hread : Reads (definition (n + 1)) (word f.name :: symbol '(' ::
      (commas (params.map fun p => [word p.name]) ++ symbol ')' :: symbol '=' ::
        (e.spell ++ rest))) rest (·.bare = (Stmt.define f params e).bare) := by
    refine reads_bind (reads_ident (kind_word h.1) _ _) fun _ ht => ?_
    refine reads_bind (reads_symbol '(' _) fun _ _ => ?_
    refine reads_bind (reads_params h.2.1 (by simp at hn ⊢; omega)) fun names hnames => ?_
    refine reads_bind (reads_symbol '=' _) fun _ _ => ?_
    refine reads_bind (reads_wholeExpression h.2.2 (by simp at hn ⊢; omega) hrest.ends)
      fun e' he' => reads_pure ?_
    show Stmt.define _ ((names.map Token.toIdent).map _) e'.bare = Stmt.define _ _ e.bare
    rw [ht, he', List.map_map, hnames]
    rfl
  exact reads_map hread fun s' hs' => congrArg some hs'

/-- An expression by itself is read as one to print, unless it starts with a minus sign. -/
theorem statement_spell_print {m : τ} {e : Expr τ} (h : e.Legible)
    (hneg : (Stmt.print m e).printsNegative = false) (n : Nat) (hrest : EndsLine rest) :
    ∃ t, statement (n + 1) (e.spell ++ rest) = (some <$> printing t (n + 1)) (e.spell ++ rest) := by
  have hflat := e.flat_spell h
  cases e with
  | name id =>
    exact ⟨_, statement_print_name n rest (kind_word h) (hrest.head?_any (by decide))
      (by rw [hrest.head?_any (by decide)]; rfl)⟩
  | number m' text => exact ⟨_, statement_print n rest (.inl rfl)⟩
  | negative m' text => cases hneg
  | binary m' op l r => exact ⟨_, statement_print n _ (.inr rfl)⟩
  | call f args =>
    -- No equals sign stands on the line, so this is not a definition.
    rw [Expr.spell, List.forall_mem_cons] at hflat
    refine ⟨_, statement_print_name n _ (kind_word h.1) rfl ?_⟩
    exact (Bool.and_eq_false_iff.mpr
      (.inr ((assignsOnLine_append hflat.2 rest).trans hrest.assignsOnLine)))
  | list m' es =>
    rw [Expr.spell, List.forall_mem_cons] at hflat
    refine ⟨_, statement_print_list n _ rfl ?_⟩
    exact (assignsOnLine_append hflat.2 rest).trans hrest.assignsOnLine

theorem reads_print {m : τ} {e : Expr τ} (h : e.Legible)
    (hneg : (Stmt.print m e).printsNegative = false) : StmtReadsBack (Stmt.print m e) := by
  intro n rest hrest hn
  rw [Stmt.spell] at hn ⊢
  obtain ⟨t, ts, hspell, -⟩ := Expr.spell_eq_cons h
  obtain ⟨n, rfl⟩ : ∃ d, n = d + 1 := ⟨n - 1, by simp [hspell] at hn; omega⟩
  obtain ⟨first, hstatement⟩ := statement_spell_print h hneg n hrest
  rw [Reads, hstatement]
  refine reads_map (reads_map (reads_wholeExpression h hn hrest.ends) fun e' he' => ?_)
    fun s' hs' => congrArg some hs'
  exact congrArg (Stmt.print ()) he'

theorem reads_unpack {m : τ} {l r : Expr τ} (h : (Stmt.unpack m l r).Legible)
    (hlist : l.isList = true) : StmtReadsBack (Stmt.unpack m l r) := by
  intro n rest hrest hn
  rw [Stmt.spell, List.append_assoc, List.cons_append] at hn ⊢
  obtain ⟨-, hl, hr⟩ := h
  have hflat := l.flat_spell hl
  obtain ⟨n, rfl⟩ : ∃ d, n = d + 1 := ⟨n - 1, by simp at hn; omega⟩
  have hread : Reads (unpacking (n + 1)) (l.spell ++ symbol '=' :: (r.spell ++ rest)) rest
      (·.bare = (Stmt.unpack m l r).bare) := by
    refine reads_bind (reads_wholeExpression hl hn (ends_cons (by decide) rfl _)) fun l' hl' => ?_
    refine reads_bind (reads_symbol '=' _) fun _ _ => ?_
    refine reads_bind (reads_wholeExpression hr (by simp at hn ⊢; omega) hrest.ends)
      fun r' hr' => reads_pure ?_
    show Stmt.unpack _ l'.bare r'.bare = Stmt.unpack _ l.bare r.bare
    rw [hl', hr']
  have hstatement : statement (n + 1) (l.spell ++ symbol '=' :: (r.spell ++ rest))
      = (some <$> unpacking (n + 1)) (l.spell ++ symbol '=' :: (r.spell ++ rest)) := by
    obtain ⟨m', es, rfl⟩ := Expr.eq_list_of_isList hlist
    rw [Expr.spell, List.forall_mem_cons] at hflat
    exact statement_unpacking n _ rfl
      ((assignsOnLine_append hflat.2 (symbol '=' :: (r.spell ++ rest))).trans rfl)
  rw [Reads, hstatement]
  exact reads_map hread fun s' hs' => congrArg some hs'

/-! ### Giving up -/

/-- The parser complains, and not only that the tokens ran out. -/
def Fails (p : Parser α) (ts : List Token) : Prop :=
  ∃ c, p ts = .error c ∧ c.kind ≠ .cutShort

theorem fails_unexpected (t : Token) (ts : List Token) :
    Fails (unexpected : Parser α) (t :: ts) := by
  refine ⟨_, rfl, ?_⟩
  dsimp only
  split <;> decide

theorem fails_needed (what : String) (t : Token) (ts : List Token) :
    Fails (needed what : Parser α) (t :: ts) := by
  refine ⟨_, rfl, fun hk => ?_⟩
  cases hk

theorem fails_bind {p : Parser α} (hp : Fails p ts) (r : α → Parser β) : Fails (p >>= r) ts := by
  obtain ⟨c, hc, hk⟩ := hp
  exact ⟨c, by rw [bind_apply, hc], hk⟩

theorem fails_bind_of_ok {p : Parser α} {r : α → Parser β} {a : α} (hp : p ts = .ok (a, mid))
    (hr : Fails (r a) mid) : Fails (p >>= r) ts := by
  rw [Fails, bind_of_ok hp]
  exact hr

theorem fails_map {p : Parser α} (hp : Fails p ts) (f : α → β) : Fails (f <$> p) ts := by
  obtain ⟨c, hc, hk⟩ := hp
  exact ⟨c, by rw [map_apply, hc], hk⟩

/-- No statements can be read here: the first one fails, or an equals sign is left behind it. -/
def Balks (n : Nat) (ts : List Token) : Prop :=
  Fails (statement n) ts ∨
    ∃ o t us, statement n ts = .ok (o, t :: us) ∧ t.kind = .assign ∧ (t :: us).length < ts.length

/-- No statements can be read off the spelling of the statement, in front of a line end. -/
def StmtBalks (s : Stmt τ) : Prop :=
  ∀ n rest, EndsLine rest → (s.spell ++ rest).length ≤ n → Balks n (s.spell ++ rest)

theorem fails_statement_assign {t : Token} (ht : t.kind = .assign) (n : Nat) (ts : List Token) :
    Fails (statement n) (t :: ts) := by
  cases n with
  | zero => exact fails_unexpected t ts
  | succ n =>
    rw [Fails, statement_unexpected n ts (by rw [ht]; rfl)]
    exact fails_unexpected t ts

theorem balks_print_negative (m m' : τ) (text : String) :
    StmtBalks (Stmt.print m (.negative m' text)) := by
  intro n rest _ hn
  rw [Stmt.spell, Expr.spell, List.cons_append] at hn ⊢
  obtain ⟨n, rfl⟩ : ∃ d, n = d + 1 := ⟨n - 1, by simp at hn; omega⟩
  refine .inl ?_
  rw [Fails, statement_unexpected n _ rfl]
  exact fails_unexpected _ _

/-- An operator in parentheses is read as an expression to print; then the equals sign is left. -/
theorem balks_unpack_binary {m m' : τ} {op : String} {a b r : Expr τ}
    (h : (Expr.binary m' op a b).Legible) : StmtBalks (Stmt.unpack m (.binary m' op a b) r) := by
  intro n rest _ hn
  rw [Stmt.spell, List.append_assoc, List.cons_append] at hn ⊢
  obtain ⟨n, rfl⟩ : ∃ d, n = d + 1 := ⟨n - 1, by simp at hn; omega⟩
  have hends : Ends (symbol '=' :: (r.spell ++ rest)) := ends_cons (by decide) rfl _
  obtain ⟨l', hl', -⟩ := reads_wholeExpression h hn hends
  refine .inr ⟨some (.print (symbol '(') l'), symbol '=', r.spell ++ rest, ?_, rfl, ?_⟩
  · have hstatement : statement (n + 1) ((Expr.binary m' op a b).spell ++
        symbol '=' :: (r.spell ++ rest)) = (some <$> printing (symbol '(') (n + 1))
          ((Expr.binary m' op a b).spell ++ symbol '=' :: (r.spell ++ rest)) :=
      statement_print n _ (.inr rfl)
    rw [hstatement, map_apply, printing, map_apply, hl']
  · simp [Expr.spell]
    omega

/-! ### Bodies -/

theorem fails_bodyRest_of_balks {n m : Nat} {t : Token} (ht : t.kind ≠ .rbrace)
    (h : Balks n (t :: ts)) : Fails (bodyRest (statement n) (m + 1)) (t :: ts) := by
  rw [Fails, bodyRest_step m ht]
  rcases h with hfails | ⟨o, eq, us, hok, heq, -⟩
  · exact fails_bind hfails _
  · refine fails_bind_of_ok hok (fails_bind ?_ _)
    cases m with
    | zero => exact fails_needed _ eq us
    | succ m =>
      rw [Fails, bodyRest_step m (by rw [heq]; decide)]
      exact fails_bind (fails_statement_assign heq n us) _

theorem endsLine_spellLines (ss : List (Stmt τ)) (rest : List Token) :
    EndsLine (Stmt.spellLines ss ++ lineEnd :: rest) := by
  cases ss <;> exact endsLine_lineEnd _

theorem spell_stmt_eq_cons {s : Stmt τ} (h : s.Legible) :
    ∃ t ts, s.spell = t :: ts ∧ t.kind ≠ .rbrace := by
  have hexpr : ∀ {e : Expr τ}, e.Legible → ∃ t ts, e.spell = t :: ts ∧ t.kind ≠ .rbrace := by
    intro e he
    obtain ⟨t, ts, hspell, ht⟩ := Expr.spell_eq_cons he
    refine ⟨t, ts, hspell, fun hk => ?_⟩
    rw [hk] at ht
    cases ht
  cases s with
  | declare m x e => exact ⟨_, _, rfl, by rw [kind_word h.1]; decide⟩
  | define f params e => exact ⟨_, _, rfl, by rw [kind_word h.1]; decide⟩
  | print m e => exact hexpr h
  | count m a b i s body => exact ⟨_, _, rfl, by decide⟩
  | each m i e body => exact ⟨_, _, rfl, by decide⟩
  | block m body => exact ⟨_, _, rfl, by decide⟩
  | unpack m l r =>
    obtain ⟨t, ts, hspell, ht⟩ := hexpr h.2.1
    exact ⟨t, ts ++ symbol '=' :: r.spell, by rw [Stmt.spell, hspell]; rfl, ht⟩

/-- A statement is read back, or it is of a form that is not and the parser balks at it. -/
def Settled (s : Stmt τ) : Prop :=
  (s.Rereadable ∧ StmtReadsBack s) ∨ (¬ s.Rereadable ∧ StmtBalks s)

/-- The statements of a body: either all are read back, or the parser fails at the first that is
not. -/
theorem bodyRest_settled {ss : List (Stmt τ)} (hss : ∀ s ∈ ss, s.Legible ∧ Settled s) {n m : Nat}
    (hn : (Stmt.spellLines ss ++ lineEnd :: symbol '\x7d' :: rest).length ≤ n)
    (hm : (Stmt.spellLines ss ++ lineEnd :: symbol '\x7d' :: rest).length ≤ m) :
    ((∀ s ∈ ss, s.Rereadable) ∧
      Reads (bodyRest (statement n) m) (Stmt.spellLines ss ++ lineEnd :: symbol '\x7d' :: rest) rest
        (fun ss' => Program.bare ss' = Program.bare ss)) ∨
    (¬ (∀ s ∈ ss, s.Rereadable) ∧
      Fails (bodyRest (statement n) m)
        (Stmt.spellLines ss ++ lineEnd :: symbol '\x7d' :: rest)) := by
  induction ss generalizing m with
  | nil =>
    obtain ⟨m, rfl⟩ : ∃ d, m = d + 2 := ⟨m - 2, by simp [Stmt.spellLines] at hm; omega⟩
    obtain ⟨n, rfl⟩ : ∃ d, n = d + 1 := ⟨n - 1, by simp [Stmt.spellLines] at hn; omega⟩
    refine .inl ⟨by simp, ?_⟩
    rw [Reads, Stmt.spellLines, List.nil_append, bodyRest_newline kind_lineEnd]
    exact ⟨[], rfl, rfl⟩
  | cons s ss ih =>
    obtain ⟨hs, hsettled⟩ := hss s List.mem_cons_self
    obtain ⟨t, ts, hspell, ht⟩ := spell_stmt_eq_cons hs
    have htokens : Stmt.spellLines (s :: ss) ++ lineEnd :: symbol '\x7d' :: rest = lineEnd ::
        (s.spell ++ (Stmt.spellLines ss ++ lineEnd :: symbol '\x7d' :: rest)) := by
      simp [Stmt.spellLines]
    have hends := endsLine_spellLines ss (symbol '\x7d' :: rest)
    rw [htokens] at hn hm ⊢
    simp only [List.length_cons, List.length_append] at hn hm
    obtain ⟨m, rfl⟩ : ∃ d, m = d + 2 := ⟨m - 2, by simp [hspell] at hm; omega⟩
    obtain ⟨n, rfl⟩ : ∃ d, n = d + 1 := ⟨n - 1, by omega⟩
    have hlen : (s.spell ++ (Stmt.spellLines ss ++ lineEnd :: symbol '\x7d' :: rest)).length
        ≤ n + 1 := by
      simp
      omega
    rw [Reads, Fails, bodyRest_newline kind_lineEnd]
    rcases hsettled with ⟨hreread, hreads⟩ | ⟨hreread, hbalks⟩
    · -- The statement is read back, and the others decide.
      obtain ⟨o, ho, hbare⟩ := hreads (n + 1) _ hends hlen
      obtain ⟨s', rfl, hs'⟩ := Option.map_eq_some_iff.mp hbare
      have hstep : bodyRest (statement (n + 1)) (m + 1)
          (s.spell ++ (Stmt.spellLines ss ++ lineEnd :: symbol '\x7d' :: rest))
          = ((s' :: ·) <$> bodyRest (statement (n + 1)) m)
            (Stmt.spellLines ss ++ lineEnd :: symbol '\x7d' :: rest) := by
        rw [hspell] at ho ⊢
        rw [List.cons_append] at ho ⊢
        rw [bodyRest_step m ht, bind_of_ok ho, map_eq_pure_bind]
        rfl
      rw [hstep]
      have hrest := ih (fun x hx => hss x (List.mem_cons_of_mem s hx)) (m := m)
        (by simp; omega) (by simp [hspell] at hm ⊢; omega)
      rcases hrest with ⟨hall, hread⟩ | ⟨hall, hfails⟩
      · refine .inl ⟨List.forall_mem_cons.mpr ⟨hreread, hall⟩, reads_map hread fun ss' hss' => ?_⟩
        show s'.bare :: Program.bare ss' = s.bare :: Program.bare ss
        rw [hs', hss']
      · exact .inr ⟨fun hx => hall (List.forall_mem_cons.mp hx).2, fails_map hfails _⟩
    · -- The statement is not read back, and the body ends here.
      refine .inr ⟨fun hx => hreread (hx s List.mem_cons_self), ?_⟩
      have hbalk := hbalks (n + 1) _ hends hlen
      rw [hspell, List.cons_append] at hbalk ⊢
      exact fails_bodyRest_of_balks ht hbalk

/-- A body between braces. -/
theorem body_settled {ss : List (Stmt τ)} (hss : ∀ s ∈ ss, s.Legible ∧ Settled s) {b : Nat}
    (hb : (braces (Stmt.spellLines ss) ++ rest).length ≤ b + 1) :
    ((∀ s ∈ ss, s.Rereadable) ∧
      Reads (body (statement b) b) (braces (Stmt.spellLines ss) ++ rest) rest
        (fun ss' => Program.bare ss' = Program.bare ss)) ∨
    (¬ (∀ s ∈ ss, s.Rereadable) ∧
      Fails (body (statement b) b) (braces (Stmt.spellLines ss) ++ rest)) := by
  have hbrace : ∀ ts, body (statement b) b (symbol '\x7b' :: ts) = bodyRest (statement b) b ts := by
    intro ts
    rfl
  cases ss with
  | nil =>
    obtain ⟨b, rfl⟩ : ∃ d, b = d + 1 := ⟨b - 1, by simp [braces, Stmt.spellLines] at hb; omega⟩
    exact .inl ⟨by simp, ⟨[], rfl, rfl⟩⟩
  | cons s ss =>
    have htokens : braces (Stmt.spellLines (s :: ss)) ++ rest = symbol '\x7b' ::
        (Stmt.spellLines (s :: ss) ++ lineEnd :: symbol '\x7d' :: rest) := by
      simp [braces, Stmt.spellLines]
    rw [htokens] at hb ⊢
    rw [Reads, Fails, hbrace]
    exact bodyRest_settled hss (Nat.le_of_succ_le_succ hb) (Nat.le_of_succ_le_succ hb)

/-! ### Loops -/

theorem token_word {text : String} {k : Kind} (h : Kind.ofWord text = k) (ts : List Token) :
    token k (word text :: ts) = .ok (word text, ts) :=
  if_pos h

theorem ends_braces (ts rest : List Token) : Ends (braces ts ++ rest) :=
  ends_cons (by decide) rfl _

/-- The head of a counting loop is read back, and what is left is its body. -/
theorem countLoop_spell {m : τ} {a c : Expr τ} {i : Ident τ} {s : Expr τ} {ss : List (Stmt τ)}
    (h : (Stmt.count m a c i s ss).Legible) (first : Token)
    (stmt : Parser (Option (Stmt Token))) {lines : List Token} {b : Nat}
    (hb : (a.spell ++ word "to" :: (c.spell ++ word "as" :: word i.name :: word "with" ::
      word "step" :: (s.spell ++ (braces lines ++ rest)))).length ≤ b) :
    ∃ start stop step, start.bare = a.bare ∧ stop.bare = c.bare ∧ step.bare = s.bare ∧
      countLoop first stmt b (a.spell ++ word "to" :: (c.spell ++ word "as" :: word i.name ::
        word "with" :: word "step" :: (s.spell ++ (braces lines ++ rest))))
      = (Stmt.count first start stop (word i.name).toIdent step <$> body stmt b)
          (braces lines ++ rest) := by
  obtain ⟨ha, hc, hi, hs, -⟩ := h
  simp only [List.length_append, List.length_cons] at hb
  -- Each expression ends at a keyword, or at the brace.
  obtain ⟨step, hstep, hstep'⟩ : Reads (wholeExpression b) (s.spell ++ (braces lines ++ rest))
      (braces lines ++ rest) (·.bare = s.bare) :=
    reads_wholeExpression hs (by simp; omega) (ends_braces _ _)
  obtain ⟨stop, hstop, hstop'⟩ : Reads (wholeExpression b) (c.spell ++ word "as" ::
      word i.name :: word "with" :: word "step" :: (s.spell ++ (braces lines ++ rest)))
      (word "as" :: word i.name :: word "with" :: word "step" ::
        (s.spell ++ (braces lines ++ rest))) (·.bare = c.bare) :=
    reads_wholeExpression hc (by simp; omega) (ends_cons (by decide) (by decide) _)
  obtain ⟨start, hstart, hstart'⟩ : Reads (wholeExpression b) (a.spell ++ word "to" ::
      (c.spell ++ word "as" :: word i.name :: word "with" :: word "step" ::
        (s.spell ++ (braces lines ++ rest)))) (word "to" :: (c.spell ++ word "as" ::
      word i.name :: word "with" :: word "step" :: (s.spell ++ (braces lines ++ rest))))
      (·.bare = a.bare) :=
    reads_wholeExpression ha (by simp; omega) (ends_cons (by decide) (by decide) _)
  have hstepOf : stepOf (word i.name) b (word "with" :: word "step" ::
      (s.spell ++ (braces lines ++ rest))) = .ok (step, braces lines ++ rest) := by
    have hwith : nextIs .withWord (word "with" :: word "step" ::
        (s.spell ++ (braces lines ++ rest))) = .ok (true, word "with" :: word "step" ::
          (s.spell ++ (braces lines ++ rest))) := rfl
    have hkey : Kind.ofWord "with" = .withWord ∧ Kind.ofWord "step" = .stepWord := by decide
    rw [stepOf, bind_of_ok hwith, if_pos rfl, bind_of_ok (token_word hkey.1 _),
      bind_of_ok (token_word hkey.2 _), hstep]
  have hkey : Kind.ofWord "to" = .toWord ∧ Kind.ofWord "as" = .asWord := by decide
  have hvar : ident "loop variable" (word i.name :: word "with" :: word "step" ::
      (s.spell ++ (braces lines ++ rest))) = .ok (word i.name, word "with" :: word "step" ::
        (s.spell ++ (braces lines ++ rest))) := if_pos (kind_word hi)
  refine ⟨start, stop, step, hstart', hstop', hstep', ?_⟩
  rw [countLoop, bind_of_ok hstart, bind_of_ok (token_word hkey.1 _), bind_of_ok hstop,
    bind_of_ok (token_word hkey.2 _), bind_of_ok hvar, bind_of_ok hstepOf, map_eq_pure_bind]

/-- The head of a loop over a list is read back, and what is left is its body. -/
theorem listLoop_spell {m : τ} {i : Ident τ} {e : Expr τ} {ss : List (Stmt τ)}
    (h : (Stmt.each m i e ss).Legible) (first : Token)
    (stmt : Parser (Option (Stmt Token))) {lines : List Token} {b : Nat}
    (hb : (word i.name :: word "in" :: (e.spell ++ (braces lines ++ rest))).length ≤ b) :
    ∃ source, source.bare = e.bare ∧
      listLoop first stmt b (word i.name :: word "in" :: (e.spell ++ (braces lines ++ rest)))
      = (Stmt.each first (word i.name).toIdent source <$> body stmt b) (braces lines ++ rest) := by
  obtain ⟨hi, he, -⟩ := h
  obtain ⟨source, hsource, hsource'⟩ : Reads (wholeExpression b)
      (e.spell ++ (braces lines ++ rest)) (braces lines ++ rest) (·.bare = e.bare) :=
    reads_wholeExpression he (by simp at hb ⊢; omega) (ends_braces _ _)
  have hkey : Kind.ofWord "in" = .inWord := by decide
  have hvar : ident "loop variable" (word i.name :: word "in" ::
      (e.spell ++ (braces lines ++ rest))) = .ok (word i.name, word "in" ::
        (e.spell ++ (braces lines ++ rest))) := if_pos (kind_word hi)
  refine ⟨source, hsource', ?_⟩
  rw [listLoop, bind_of_ok hvar, bind_of_ok (token_word hkey _), bind_of_ok hsource,
    map_eq_pure_bind]

/-! ### All statements -/

/-- A statement that ends in a body fares as its body does, if the parser gets as far as there. -/
theorem settled_of_body {s : Stmt τ} {ss : List (Stmt τ)}
    (hnested : s.Rereadable ↔ ∀ x ∈ ss, x.Rereadable) (hss : ∀ x ∈ ss, x.Legible ∧ Settled x)
    (h : ∀ n rest, (s.spell ++ rest).length ≤ n → ∃ (b : Nat) (f : List (Stmt Token) → Stmt Token),
      (∀ ss', Program.bare ss' = Program.bare ss → (f ss').bare = s.bare) ∧
      (braces (Stmt.spellLines ss) ++ rest).length ≤ b + 1 ∧
      statement n (s.spell ++ rest)
        = (some <$> f <$> body (statement b) b) (braces (Stmt.spellLines ss) ++ rest)) :
    Settled s := by
  -- Both answers of the body are the statement's.
  by_cases hall : ∀ x ∈ ss, x.Rereadable
  · refine .inl ⟨hnested.mpr hall, fun n rest _ hn => ?_⟩
    obtain ⟨b, f, hf, hb, hstatement⟩ := h n rest hn
    rw [Reads, hstatement]
    rcases body_settled hss hb with ⟨-, hreads⟩ | ⟨hnot, -⟩
    · exact reads_map (reads_map hreads hf) fun s' hs' => congrArg some hs'
    · exact absurd hall hnot
  · refine .inr ⟨mt hnested.mp hall, fun n rest _ hn => .inl ?_⟩
    obtain ⟨b, f, -, hb, hstatement⟩ := h n rest hn
    rw [Fails, hstatement]
    rcases body_settled hss hb with ⟨hyes, -⟩ | ⟨-, hfails⟩
    · exact absurd hyes hall
    · exact fails_map (fails_map hfails f) some

theorem settled_count {m : τ} {a c : Expr τ} {i : Ident τ} {s : Expr τ} {ss : List (Stmt τ)}
    (h : (Stmt.count m a c i s ss).Legible) (hss : ∀ x ∈ ss, x.Legible ∧ Settled x) :
    Settled (Stmt.count m a c i s ss) := by
  refine settled_of_body (Stmt.rereadable_of_nested rfl rfl rfl) hss fun n rest hn => ?_
  have htokens : (Stmt.count m a c i s ss).spell ++ rest = word "from" :: (a.spell ++ word "to" ::
      (c.spell ++ word "as" :: word i.name :: word "with" :: word "step" ::
        (s.spell ++ (braces (Stmt.spellLines ss) ++ rest)))) := by
    simp [Stmt.spell]
  rw [htokens] at hn ⊢
  obtain ⟨n, rfl⟩ : ∃ d, n = d + 1 := ⟨n - 1, by simp at hn; omega⟩
  obtain ⟨start, stop, step, hstart, hstop, hstep, hloop⟩ :=
    countLoop_spell h (word "from") (statement n) (Nat.le_of_succ_le_succ hn)
  refine ⟨n, Stmt.count (word "from") start stop (word i.name).toIdent step, fun ss' hss' => ?_,
    by simp at hn ⊢; omega, ?_⟩
  · show Stmt.count _ start.bare stop.bare _ step.bare (Program.bare ss')
      = Stmt.count _ a.bare c.bare _ s.bare (Program.bare ss)
    rw [hstart, hstop, hstep, hss']
    rfl
  · rw [statement_count n _ (by decide), map_apply, hloop]
    rfl

theorem settled_each {m : τ} {i : Ident τ} {e : Expr τ} {ss : List (Stmt τ)}
    (h : (Stmt.each m i e ss).Legible) (hss : ∀ x ∈ ss, x.Legible ∧ Settled x) :
    Settled (Stmt.each m i e ss) := by
  refine settled_of_body (Stmt.rereadable_of_nested rfl rfl rfl) hss fun n rest hn => ?_
  have htokens : (Stmt.each m i e ss).spell ++ rest = word "for" :: word i.name :: word "in" ::
      (e.spell ++ (braces (Stmt.spellLines ss) ++ rest)) := by
    simp [Stmt.spell]
  rw [htokens] at hn ⊢
  obtain ⟨n, rfl⟩ : ∃ d, n = d + 1 := ⟨n - 1, by simp at hn; omega⟩
  obtain ⟨source, hsource, hloop⟩ :=
    listLoop_spell h (word "for") (statement n) (Nat.le_of_succ_le_succ hn)
  refine ⟨n, Stmt.each (word "for") (word i.name).toIdent source, fun ss' hss' => ?_,
    by simp at hn ⊢; omega, ?_⟩
  · show Stmt.each _ _ source.bare (Program.bare ss') = Stmt.each _ _ e.bare (Program.bare ss)
    rw [hsource, hss']
    rfl
  · rw [statement_each n _ (by decide), map_apply, hloop]
    rfl

theorem settled_block {m : τ} {ss : List (Stmt τ)} (hss : ∀ x ∈ ss, x.Legible ∧ Settled x) :
    Settled (Stmt.block m ss) := by
  refine settled_of_body (Stmt.rereadable_of_nested rfl rfl rfl) hss fun n rest hn => ?_
  rw [Stmt.spell] at hn ⊢
  obtain ⟨n, rfl⟩ : ∃ d, n = d + 1 := ⟨n - 1, by simp [braces] at hn; omega⟩
  refine ⟨n, Stmt.block (symbol '\x7b'), fun ss' hss' => ?_, hn, ?_⟩
  · exact congrArg (Stmt.block ()) hss'
  · rw [braces, List.cons_append, statement_block n _ rfl, map_apply, map_apply, map_apply]
    cases body (statement n) n _ <;> rfl

mutual

/-- **A legible statement is read back off its spelling, up to marks, if neither it nor one inside
it is of a form that is not read again; otherwise the parser balks at it.** -/
theorem settled : (s : Stmt τ) → s.Legible → Settled s
  | .declare m x e, h => .inl ⟨(Stmt.rereadable_of_leaf rfl).mpr ⟨rfl, rfl⟩, reads_declare h⟩
  | .define f params e, h => .inl ⟨(Stmt.rereadable_of_leaf rfl).mpr ⟨rfl, rfl⟩, reads_define h⟩
  | .print m e, h => by
    cases hneg : (Stmt.print m e).printsNegative with
    | false => exact .inl ⟨(Stmt.rereadable_of_leaf rfl).mpr ⟨hneg, rfl⟩, reads_print h hneg⟩
    | true =>
      obtain ⟨m', text, rfl⟩ := Stmt.eq_negative_of_printsNegative hneg
      refine .inr ⟨fun hr => ?_, balks_print_negative m m' text⟩
      cases ((Stmt.rereadable_of_leaf rfl).mp hr).1
  | .unpack m l r, h => by
    rcases h.1 with hlist | hbinary
    · refine .inl ⟨(Stmt.rereadable_of_leaf rfl).mpr ⟨rfl, ?_⟩, reads_unpack h hlist⟩
      rw [Stmt.unpacksOther, hlist]
      rfl
    · -- The only other left side starts with a bracket when read, but not when printed.
      obtain ⟨m', op, a, b, rfl⟩ := Expr.eq_binary_of_isBinary hbinary
      refine .inr ⟨fun hr => ?_, balks_unpack_binary h.2.1⟩
      cases ((Stmt.rereadable_of_leaf rfl).mp hr).2
  | .count m a c i s ss, h => settled_count h (settled_all ss h.2.2.2.2)
  | .each m i e ss, h => settled_each h (settled_all ss h.2.2)
  | .block m ss, h => settled_block (settled_all ss h)

theorem settled_all : (ss : List (Stmt τ)) → Stmt.AllLegible ss → ∀ s ∈ ss, s.Legible ∧ Settled s
  | [], _ => by simp
  | s :: ss, h => List.forall_mem_cons.mpr ⟨⟨h.1, settled s h.1⟩, settled_all ss h.2⟩

end

end Parser

end ListCalc
