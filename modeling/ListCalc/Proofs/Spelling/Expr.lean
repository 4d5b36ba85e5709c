/-
Spelled expressions are read back.

`Reads p ts rest Q` says that the parser `p` reads a value with `Q` off the tokens
`ts` and leaves `rest`.  Off the spelling of a legible expression, the expression
itself is read, up to marks, in front of any token that cannot continue it
(`reads_spell`).  The spelling is an operand whatever the expression, since every
operator stands in parentheses; so nothing depends on how tightly operators bind.
-/
import ListCalc.Proofs.Spelling
import ListCalc.Proofs.Expr.Parser

namespace ListCalc

open Token

variable {τ α β γ : Type}

/-! ### Kinds of tokens in spellings -/

theorem kind_word {text : String} (h : IsName text) : (word text).kind = .ident := h.2

theorem precedence?_operator {op : String} (h : IsOperator op) :
    ∃ p, Parser.precedence? (operator op).kind = some p ∧ (operator op).text = op := by
  obtain ⟨c, k, p, rfl, hk, hp⟩ := h
  have htext : c.toString.toList = [c] := String.toList_singleton c
  refine ⟨p, ?_, ?_⟩
  · rw [operator, htext]
    simpa [symbol, hk] using hp
  · rw [operator, htext]
    rfl

/-- The token is neither a line end nor an equals sign. -/
def Flat (t : Token) : Prop := t.kind ≠ .newline ∧ t.kind ≠ .assign

theorem flat_operator {op : String} (h : IsOperator op) : Flat (operator op) := by
  obtain ⟨p, hp, -⟩ := precedence?_operator h
  refine ⟨fun hk => ?_, fun hk => ?_⟩
  · rw [hk] at hp
    cases hp
  · rw [hk] at hp
    cases hp

theorem flat_word {text : String} (h : IsName text) : Flat (word text) := by
  rw [Flat, kind_word h]
  decide

theorem flat_commas {tss : List (List Token)} (h : ∀ ts ∈ tss, ∀ t ∈ ts, Flat t) :
    ∀ t ∈ commas tss, Flat t := by
  cases tss with
  | nil => simp [commas]
  | cons ts more =>
    intro t ht
    rcases List.mem_append.mp ht with ht | ht
    · exact h ts List.mem_cons_self t ht
    · obtain ⟨us, hus, ht⟩ := List.mem_flatMap.mp ht
      rcases List.mem_cons.mp ht with rfl | ht
      · exact ⟨by decide, by decide⟩
      · exact h us (List.mem_cons_of_mem ts hus) t ht

namespace Expr

mutual

/-- The spelling of an expression stands on one line and has no equals sign. -/
theorem flat_spell : (e : Expr τ) → e.Legible → ∀ t ∈ e.spell, Flat t
  | name id, h => by simpa [spell] using flat_word h
  | number _ text, _ => by simp [spell, Flat, numeral]
  | negative _ text, _ => by
    simp only [spell, List.forall_mem_cons]
    exact ⟨⟨by decide, by decide⟩, ⟨by simp [numeral], by simp [numeral]⟩, by simp⟩
  | binary _ op l r, h => by
    simp only [spell, List.forall_mem_cons, List.forall_mem_append]
    exact ⟨⟨by decide, by decide⟩, flat_spell l h.2.1, flat_operator h.1, flat_spell r h.2.2,
      ⟨by decide, by decide⟩, by simp⟩
  | call f args, h => by
    simp only [spell, List.forall_mem_cons, List.forall_mem_append]
    exact ⟨flat_word h.1, ⟨by decide, by decide⟩, flat_commas (flat_spellAll args h.2),
      ⟨by decide, by decide⟩, by simp⟩
  | list _ es, h => by
    simp only [spell, List.forall_mem_cons, List.forall_mem_append]
    exact ⟨⟨by decide, by decide⟩, flat_commas (flat_spellAll es h), ⟨by decide, by decide⟩,
      by simp⟩

theorem flat_spellAll : (es : List (Expr τ)) → AllLegible es →
    ∀ ts ∈ spellAll es, ∀ t ∈ ts, Flat t
  | [], _ => by simp [spellAll]
  | e :: es, h => by
    simp only [spellAll, List.forall_mem_cons]
    exact ⟨flat_spell e h.1, flat_spellAll es h.2⟩

end

/-- The spelling of an expression starts like an operand. -/
theorem spell_eq_cons {e : Expr τ} (h : e.Legible) :
    ∃ t ts, e.spell = t :: ts ∧ Parser.startsOperand t.kind = true := by
  cases e with
  | name id => exact ⟨_, _, rfl, by rw [kind_word h]; rfl⟩
  | number m text => exact ⟨_, _, rfl, rfl⟩
  | negative m text => exact ⟨_, _, rfl, rfl⟩
  | binary m op l r => exact ⟨_, _, rfl, rfl⟩
  | call f args => exact ⟨_, _, rfl, by rw [kind_word h.1]; rfl⟩
  | list m es => exact ⟨_, _, rfl, rfl⟩

end Expr

namespace Parser

/-! ### Reading -/

variable {ts mid rest : List Token} {Q : α → Prop} {R : β → Prop}

/-- The parser reads a value with `Q` off `ts` and leaves `rest`. -/
def Reads (p : Parser α) (ts rest : List Token) (Q : α → Prop) : Prop :=
  ∃ a, p ts = .ok (a, rest) ∧ Q a

theorem reads_pure {a : α} (h : Q a) : Reads (pure a) ts ts Q := ⟨a, rfl, h⟩

theorem reads_bind {p : Parser α} {r : α → Parser β} (hp : Reads p ts mid Q)
    (hr : ∀ a, Q a → Reads (r a) mid rest R) : Reads (p >>= r) ts rest R := by
  obtain ⟨a, ha, hq⟩ := hp
  obtain ⟨b, hb, hR⟩ := hr a hq
  exact ⟨b, by rw [bind_apply, ha]; exact hb, hR⟩

theorem reads_map {p : Parser α} {f : α → β} (hp : Reads p ts rest Q)
    (hf : ∀ a, Q a → R (f a)) : Reads (f <$> p) ts rest R := by
  obtain ⟨a, ha, hq⟩ := hp
  exact ⟨f a, by rw [map_apply, ha], hf a hq⟩

theorem reads_token {k : Kind} {t : Token} (h : t.kind = k) (ts : List Token) :
    Reads (token k) (t :: ts) ts (· = t) :=
  ⟨t, if_pos h, rfl⟩

theorem reads_symbol (c : Char) (ts : List Token) :
    Reads (token (symbol c).kind) (symbol c :: ts) ts (· = symbol c) :=
  reads_token rfl ts

theorem reads_ident {t : Token} (h : t.kind = .ident) (what : String) (ts : List Token) :
    Reads (ident what) (t :: ts) ts (· = t) :=
  ⟨t, if_pos h, rfl⟩

theorem reads_nextIs (k : Kind) (t : Token) (ts : List Token) :
    Reads (nextIs k) (t :: ts) (t :: ts) (· = (t.kind == k)) :=
  ⟨_, rfl, rfl⟩

/-- There are no line ends to skip. -/
theorem reads_newlines (h : ∀ t ∈ ts.head?, t.kind ≠ .newline) :
    Reads newlines ts ts (fun _ => True) := by
  refine ⟨(), ?_, trivial⟩
  cases ts with
  | nil => rfl
  | cons t ts => simp [newlines, h t rfl]

theorem reads_then {b : Bool} {p q : Parser α} (hb : b = true) (hp : Reads p ts rest Q) :
    Reads (if b then p else q) ts rest Q := by
  rw [if_pos hb]
  exact hp

theorem reads_else {b : Bool} {p q : Parser α} (hb : b = false) (hq : Reads q ts rest Q) :
    Reads (if b then p else q) ts rest Q := by
  rw [hb]
  exact hq

/-! ### Sequences of items -/

section

variable {item : Parser α} {close : Kind} {c : Token} {xs : List γ} {g : γ → List Token}
  {F : α → β} {G : γ → β} {n b : Nat}

/-- Behind an item stands a comma, or what closes the sequence. -/
theorem exists_more_eq_cons (hc : c.kind = close) (tss : List (List Token)) (rest : List Token) :
    ∃ u us, tss.flatMap (symbol ',' :: ·) ++ c :: rest = u :: us ∧
      (u.kind = .comma ∨ u.kind = close) := by
  cases tss with
  | nil => exact ⟨c, rest, rfl, .inr hc⟩
  | cons ts tss => exact ⟨symbol ',', _, rfl, .inl rfl⟩

/-- The items behind the first one. -/
theorem reads_moreItems (hc : c.kind = close) (hclose : close ≠ .comma)
    (hitem : ∀ x ∈ xs, ∀ u us, (u.kind = .comma ∨ u.kind = close) →
      (g x ++ u :: us).length ≤ n → Reads item (g x ++ u :: us) (u :: us) (F · = G x))
    (hn : ((xs.map g).flatMap (symbol ',' :: ·) ++ c :: rest).length ≤ n)
    (hb : ((xs.map g).flatMap (symbol ',' :: ·) ++ c :: rest).length ≤ b) :
    Reads (moreItems item close b) ((xs.map g).flatMap (symbol ',' :: ·) ++ c :: rest) rest
      (fun as => as.map F = xs.map G) := by
  induction xs generalizing b with
  | nil =>
    obtain ⟨b, rfl⟩ : ∃ d, b = d + 1 := ⟨b - 1, by simp at hb; omega⟩
    refine reads_bind (reads_nextIs close c rest) fun found hfound => ?_
    refine reads_then (hfound.trans (beq_iff_eq.mpr hc)) ?_
    exact reads_bind (reads_token hc rest) fun _ _ => reads_pure rfl
  | cons x xs ih =>
    obtain ⟨u, us, hmore, hu⟩ := exists_more_eq_cons hc (xs.map g) rest
    have hsplit : ((x :: xs).map g).flatMap (symbol ',' :: ·) ++ c :: rest
        = symbol ',' :: (g x ++ u :: us) := by
      simp [← hmore]
    rw [hsplit] at hn hb ⊢
    obtain ⟨b, rfl⟩ : ∃ d, b = d + 1 := ⟨b - 1, by simp at hb; omega⟩
    rw [hmore] at ih
    refine reads_bind (reads_nextIs close (symbol ',') _) fun found hfound => ?_
    refine reads_else (hfound.trans (beq_eq_false_iff_ne.mpr hclose.symm)) ?_
    refine reads_bind (reads_symbol ',' _) fun _ _ => ?_
    refine reads_bind (hitem x List.mem_cons_self u us hu (by simp at hn ⊢; omega)) fun a ha => ?_
    refine reads_bind (ih (fun y hy => hitem y (List.mem_cons_of_mem x hy))
      (by simp at hn ⊢; omega) (by simp at hb ⊢; omega)) fun as has => ?_
    exact reads_pure (by rw [List.map_cons, List.map_cons, ha, has])

/-- Items with commas between them, none of which starts like the end. -/
theorem reads_items (hc : c.kind = close) (hclose : close ≠ .comma)
    (hfirst : ∀ x ∈ xs, ∃ t ts, g x = t :: ts ∧ t.kind ≠ close)
    (hitem : ∀ x ∈ xs, ∀ u us, (u.kind = .comma ∨ u.kind = close) →
      (g x ++ u :: us).length ≤ n → Reads item (g x ++ u :: us) (u :: us) (F · = G x))
    (hn : (commas (xs.map g) ++ c :: rest).length ≤ n)
    (hb : (commas (xs.map g) ++ c :: rest).length ≤ b) :
    Reads (items item close b) (commas (xs.map g) ++ c :: rest) rest
      (fun as => as.map F = xs.map G) := by
  cases xs with
  | nil =>
    refine reads_bind (reads_nextIs close c rest) fun found hfound => ?_
    refine reads_then (hfound.trans (beq_iff_eq.mpr hc)) ?_
    exact reads_bind (reads_token hc rest) fun _ _ => reads_pure rfl
  | cons x xs =>
    obtain ⟨u, us, hmore, hu⟩ := exists_more_eq_cons hc (xs.map g) rest
    obtain ⟨t, ts, hx, ht⟩ := hfirst x List.mem_cons_self
    have hsplit : commas ((x :: xs).map g) ++ c :: rest = g x ++ u :: us := by
      simp [commas, ← hmore]
    have hlen : (u :: us).length ≤ (g x ++ u :: us).length := by simp
    have hnext : Reads (nextIs close) (g x ++ u :: us) (g x ++ u :: us)
        (· = (t.kind == close)) := by
      rw [hx]
      exact reads_nextIs close t _
    have hmore' := reads_moreItems (b := b) hc hclose
      (fun y hy => hitem y (List.mem_cons_of_mem x hy))
      (by rw [hmore]; rw [hsplit] at hn; omega) (by rw [hmore]; rw [hsplit] at hb; omega)
    rw [hmore] at hmore'
    rw [hsplit] at hn ⊢
    refine reads_bind hnext fun found hfound => ?_
    refine reads_else (hfound.trans (beq_eq_false_iff_ne.mpr ht)) ?_
    refine reads_bind (hitem x List.mem_cons_self u us hu hn) fun a ha => ?_
    refine reads_bind hmore' fun as has => ?_
    exact reads_pure (by rw [List.map_cons, List.map_cons, ha, has])

end

/-! ### Expressions -/

theorem head?_ne_newline (h : ∀ t ∈ ts, Flat t) (hrest : ∀ t ∈ rest.head?, t.kind ≠ .newline) :
    ∀ t ∈ (ts ++ rest).head?, t.kind ≠ .newline := by
  cases ts with
  | nil => exact hrest
  | cons u us =>
    intro t ht
    obtain rfl := Option.some.inj ht
    exact (h u List.mem_cons_self).1

/-- What stands here cannot continue an expression. -/
def Ends (ts : List Token) : Prop :=
  ∀ t ∈ ts.head?, t.kind ≠ .lparen ∧ precedence? t.kind = none

theorem ends_cons {t : Token} (h : t.kind ≠ .lparen) (hp : precedence? t.kind = none)
    (ts : List Token) : Ends (t :: ts) := by
  intro u hu
  obtain rfl := Option.some.inj hu
  exact ⟨h, hp⟩

theorem Ends.stopsAt (h : Ends ts) (least : Nat) : StopsAt least ts := by
  intro t ht p hp
  rw [(h t ht).2] at hp
  cases hp

theorem Ends.head?_any (h : Ends ts) : ts.head?.any (·.kind == .lparen) = false := by
  cases ts with
  | nil => rfl
  | cons t ts => exact beq_eq_false_iff_ne.mpr (h t rfl).1

/-- The expression is read back, as an operand, off its spelling. -/
def ReadsBack (e : Expr τ) : Prop :=
  ∀ b rest, (e.spell ++ rest).length ≤ b + 1 → rest.head?.any (·.kind == .lparen) = false →
    Reads (operand (expression b 0) b) (e.spell ++ rest) rest (·.bare = e.bare)

theorem ReadsBack.reads_expression {e : Expr τ} (h : ReadsBack e) (he : e.Legible)
    {b least : Nat} (hb : (e.spell ++ rest).length ≤ b)
    (hcall : rest.head?.any (·.kind == .lparen) = false) (hstop : StopsAt least rest) :
    Reads (expression b least) (e.spell ++ rest) rest (·.bare = e.bare) := by
  obtain ⟨t, ts, hspell, -⟩ := Expr.spell_eq_cons he
  obtain ⟨b, rfl⟩ : ∃ d, b = d + 1 := ⟨b - 1, by simp [hspell] at hb; omega⟩
  refine reads_bind (h b rest hb hcall) fun e' he' => ?_
  exact ⟨e', operations_stop _ b e' hstop, he'⟩

/-- Expressions between brackets. -/
theorem reads_elements {es : List (Expr τ)} (hes : ∀ e ∈ es, e.Legible ∧ ReadsBack e)
    {close : Kind} (hclose : close = .rparen ∨ close = .rbrack) {c : Token}
    (hc : c.kind = close) {b : Nat}
    (hb : (commas (es.map Expr.spell) ++ c :: rest).length ≤ b) :
    Reads (elements (expression b 0) close b) (commas (es.map Expr.spell) ++ c :: rest) rest
      (fun es' => es'.map Expr.bare = es.map Expr.bare) := by
  have hkinds : close ≠ .newline ∧ close ≠ .comma ∧ close ≠ .lparen ∧ precedence? close = none ∧
      startsOperand close = false := by
    rcases hclose with rfl | rfl <;> decide
  have hflat : ∀ ts ∈ es.map Expr.spell, ∀ t ∈ ts, Flat t := by
    intro ts hts
    obtain ⟨e, he, rfl⟩ := List.mem_map.mp hts
    exact e.flat_spell (hes e he).1
  refine reads_bind (reads_newlines (head?_ne_newline (flat_commas hflat) ?_)) fun _ _ => ?_
  · intro t ht
    obtain rfl := Option.some.inj ht
    rw [hc]
    exact hkinds.1
  · refine reads_items hc hkinds.2.1 (fun e he => ?_) (fun e he u us hu hn => ?_) hb hb
    · obtain ⟨t, ts, hspell, ht⟩ := Expr.spell_eq_cons (hes e he).1
      refine ⟨t, ts, hspell, fun hk => ?_⟩
      rw [hk, hkinds.2.2.2.2] at ht
      cases ht
    · -- An item: line ends could stand on both sides of it, but none do.
      have hends : Ends (u :: us) := by
        rcases hu with hu | hu
        · exact ends_cons (by rw [hu]; decide) (by rw [hu]; rfl) us
        · exact ends_cons (by rw [hu]; exact hkinds.2.2.1) (by rw [hu]; exact hkinds.2.2.2.1) us
      have hline : ∀ t ∈ (u :: us).head?, t.kind ≠ .newline := by
        intro t ht
        obtain rfl := Option.some.inj ht
        rcases hu with hu | hu
        · rw [hu]
          decide
        · rw [hu]
          exact hkinds.1
      refine reads_bind (reads_newlines (head?_ne_newline (e.flat_spell (hes e he).1) hline))
        fun _ _ => ?_
      refine reads_bind ((hes e he).2.reads_expression (hes e he).1 hn hends.head?_any
        (hends.stopsAt 0)) fun e' he' => ?_
      exact reads_bind (reads_newlines hline) fun _ _ => reads_pure he'

/-- Two operands with an operator between them, in front of a parenthesis. -/
theorem reads_operation {m : τ} {op : String} {l r : Expr τ} (h : (Expr.binary m op l r).Legible)
    (hl : ReadsBack l) (hr : ReadsBack r) {b : Nat}
    (hb : (l.spell ++ operator op :: (r.spell ++ symbol ')' :: rest)).length ≤ b) :
    Reads (expression b 0) (l.spell ++ operator op :: (r.spell ++ symbol ')' :: rest))
      (symbol ')' :: rest) (·.bare = (Expr.binary m op l r).bare) := by
  obtain ⟨p, hp, htext⟩ := precedence?_operator h.1
  -- An operator is no parenthesis: a name in front of it is not called.
  have hcall : (operator op :: (r.spell ++ symbol ')' :: rest)).head?.any (·.kind == .lparen)
      = false := by
    refine beq_eq_false_iff_ne.mpr fun hk => ?_
    rw [hk] at hp
    cases hp
  have hends : Ends (symbol ')' :: rest) := ends_cons (by decide) rfl rest
  simp only [List.length_append, List.length_cons] at hb
  obtain ⟨b, rfl⟩ : ∃ d, b = d + 2 := ⟨b - 2, by omega⟩
  refine reads_bind (hl (b + 1) _ (by simp; omega) hcall) fun l' hl' => ?_
  -- The right operand stops at the parenthesis, and so does the operation.
  rw [Reads, operations_step _ _ _ _ hp (Nat.zero_le p)]
  refine reads_bind (hr.reads_expression h.2.2 (by simp; omega) hends.head?_any
    (hends.stopsAt (p + 1))) fun r' hr' => ?_
  refine ⟨_, operations_stop _ b _ (hends.stopsAt 0), ?_⟩
  show Expr.binary _ _ l'.bare r'.bare = Expr.binary _ _ l.bare r.bare
  rw [hl', hr', htext]

mutual

/-- A legible expression is read back off its spelling. -/
theorem reads_spell : (e : Expr τ) → e.Legible → ReadsBack e
  | .name id, h => fun b rest _ hrest => by
    rw [Expr.spell, List.singleton_append]
    exact ⟨_, operand_name _ b rest (kind_word h) hrest, rfl⟩
  | .number _ text, h => fun b rest _ _ => ⟨_, operand_number _ b rest rfl, rfl⟩
  | .negative _ text, h => fun b rest _ _ => ⟨_, operand_negative _ b rest rfl rfl, rfl⟩
  | .binary m op l r, h => fun b rest hb _ => by
    have htokens : (Expr.binary m op l r).spell ++ rest = symbol '(' ::
        (l.spell ++ operator op :: (r.spell ++ symbol ')' :: rest)) := by
      simp [Expr.spell]
    rw [htokens] at hb ⊢
    have hinner := reads_operation h (reads_spell l h.2.1) (reads_spell r h.2.2)
      (Nat.le_of_succ_le_succ hb)
    have hline : ∀ t ∈ (operator op :: (r.spell ++ symbol ')' :: rest)).head?,
        t.kind ≠ .newline := by
      intro t ht
      obtain rfl := Option.some.inj ht
      exact (flat_operator h.1).1
    have hclose : ∀ t ∈ (symbol ')' :: rest).head?, t.kind ≠ .newline := by
      intro t ht
      obtain rfl := Option.some.inj ht
      decide
    rw [Reads, operand_group _ _ _ rfl]
    refine reads_bind (reads_newlines (head?_ne_newline (l.flat_spell h.2.1) hline)) fun _ _ => ?_
    refine reads_bind hinner fun e he => ?_
    refine reads_bind (reads_newlines hclose) fun _ _ => ?_
    exact reads_bind (reads_symbol ')' rest) fun _ _ => reads_pure he
  | .call f args, h => fun b rest hb _ => by
    have htokens : (Expr.call f args).spell ++ rest = word f.name :: symbol '(' ::
        (commas (args.map Expr.spell) ++ symbol ')' :: rest) := by
      simp [Expr.spell, Expr.spellAll_eq_map]
    rw [htokens] at hb ⊢
    rw [Reads, operand_call _ _ _ (kind_word h.1) rfl]
    refine reads_map (reads_elements (reads_spellAll args h.2) (.inl rfl) rfl
      (by simp at hb ⊢; omega)) fun es hes => ?_
    show Expr.call _ (Expr.mapAll _ es) = Expr.call _ (Expr.mapAll _ args)
    rw [Expr.mapAll_eq_map, Expr.mapAll_eq_map, hes]
    rfl
  | .list m es, h => fun b rest hb _ => by
    have htokens : (Expr.list m es).spell ++ rest = symbol '[' ::
        (commas (es.map Expr.spell) ++ symbol ']' :: rest) := by
      simp [Expr.spell, Expr.spellAll_eq_map]
    rw [htokens] at hb ⊢
    rw [Reads, operand_list _ _ _ rfl]
    refine reads_map (reads_elements (reads_spellAll es h) (.inr rfl) rfl
      (by simp at hb ⊢; omega)) fun es' hes' => ?_
    show Expr.list _ (Expr.mapAll _ es') = Expr.list _ (Expr.mapAll _ es)
    rw [Expr.mapAll_eq_map, Expr.mapAll_eq_map, hes']

theorem reads_spellAll : (es : List (Expr τ)) → Expr.AllLegible es →
    ∀ e ∈ es, e.Legible ∧ ReadsBack e
  | [], _ => by simp
  | e :: es, h => List.forall_mem_cons.mpr ⟨⟨h.1, reads_spell e h.1⟩, reads_spellAll es h.2⟩

end

end Parser

end ListCalc
