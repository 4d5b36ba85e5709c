/-
Operators in layers.

The parser of expressions reads operators of all strengths in one loop.  The
grammar has a layer for each strength,

  sum     ::= product (("+" | "-") product)*
  product ::= power (("*" | "/") power)*
  power   ::= operand ("^" operand)*

where each layer joins its operands from the left, and an operand may have sums
between its brackets.  `sum` reads by these rules, a parser for each of them.

* `operations_succ` — the operators from one strength on are those from the next
  strength on, and then a chain of operators of the one strength;
* `agree_layer` — so the climbing parser of one strength is a layer over that of
  the next;
* `wholeExpression_eq_sum` — the two parsers give the same answer.
-/
import ListCalc.Proofs.Expr.Parser
import ListCalc.Stmt.Parser

namespace ListCalc

namespace Parser

/-! ### The grammar -/

/-- Reads any number of operators of one layer, each with an operand of the layer below, and joins
them to `left`. -/
def chain (isSign : Kind → Bool) (below : Parser (Expr Token)) :
    Nat → Expr Token → Parser (Expr Token)
  | 0, left => pure left
  | bound + 1, left => fun
    | [] => .ok (left, [])
    | op :: ts =>
      if isSign op.kind then (do
        let right ← below
        chain isSign below bound (.binary op op.text left right)) ts
      else .ok (left, op :: ts)

/-- Reads `below (sign below)*`. -/
def layer (isSign : Kind → Bool) (below : Parser (Expr Token)) (bound : Nat) :
    Parser (Expr Token) := do
  let left ← below
  chain isSign below bound left

/-- The sign of a power. -/
def isPowerSign (k : Kind) : Bool := k == .power

/-- The signs of a product. -/
def isProductSign (k : Kind) : Bool := k == .times || k == .divide

/-- The signs of a sum. -/
def isSumSign (k : Kind) : Bool := k == .plus || k == .minus

/-- Reads `base ("^" base)*`. -/
def power (base : Parser (Expr Token)) (bound : Nat) : Parser (Expr Token) :=
  layer isPowerSign base bound

/-- Reads `power (("*" | "/") power)*`. -/
def product (base : Parser (Expr Token)) (bound : Nat) : Parser (Expr Token) :=
  layer isProductSign (power base bound) bound

/-- Reads `product (("+" | "-") product)*` from at most `bound` tokens. -/
def sum : Nat → Parser (Expr Token)
  | 0 => unexpected
  | bound + 1 => layer isSumSign (product (operand (sum bound) bound) bound) bound

/-! ### Expressions that answer alike -/

section

variable {n b b' : Nat}

/-- The bound of the climbing parser is irrelevant once it covers the tokens. -/
theorem agree_expression (hb : n ≤ b) (hb' : n ≤ b') (least : Nat) :
    Agree n 1 (expression b least) (expression b' least) :=
  (agree_iff_follows Expr.map_id).mpr (Change.follows_expression hb hb' least)

/-- Operands agree if what stands between their brackets does. -/
theorem agree_operand {inner inner' : Parser (Expr Token)} (h : Agree n 1 inner inner')
    (hend : Starves inner) (hb : n ≤ b) (hb' : n ≤ b') :
    Agree (n + 1) 1 (operand inner b) (operand inner' b') :=
  (agree_iff_follows Expr.map_id).mpr
    (Change.follows_operand ((agree_iff_follows Expr.map_id).mp h) hend hb hb')

end

/-! ### Chains -/

section

variable {isSign : Kind → Bool} {below below' : Parser (Expr Token)} {left : Expr Token}
  {op : Token}

theorem chain_stop (below : Parser (Expr Token)) (bound : Nat) (left : Expr Token)
    {ts : List Token} (h : ∀ t ∈ ts.head?, isSign t.kind = false) :
    chain isSign below bound left ts = .ok (left, ts) := by
  cases bound with
  | zero => rfl
  | succ bound =>
    cases ts with
    | nil => rfl
    | cons op ts =>
      rw [chain]
      dsimp only
      rw [if_neg (by simp [h op rfl])]

theorem chain_step (below : Parser (Expr Token)) (bound : Nat) (left : Expr Token)
    (ts : List Token) (h : isSign op.kind = true) :
    chain isSign below (bound + 1) left (op :: ts) = (do
      let right ← below
      chain isSign below bound (.binary op op.text left right)) ts := by
  rw [chain]
  dsimp only
  rw [if_pos h]

/-- Chains agree if their operands do. -/
theorem agree_chain {n b b' : Nat} (h : Agree n 1 below below') (hb : n ≤ b) (hb' : n ≤ b')
    (left : Expr Token) :
    Agree n 0 (chain isSign below b left) (chain isSign below' b' left) := by
  induction n generalizing b b' left with
  | zero =>
    intro ts hts
    obtain rfl : ts = [] := List.length_eq_zero_iff.mp (by omega)
    have hnil : ∀ t ∈ ([] : List Token).head?, isSign t.kind = false := by simp
    rw [chain_stop below b left hnil, chain_stop below' b' left hnil]
    refine ⟨rfl, fun a rest ha => ?_⟩
    obtain ⟨-, rfl⟩ := Prod.mk.inj (Except.ok.inj ha)
    exact Nat.le_refl _
  | succ n ih =>
    obtain ⟨b, rfl⟩ : ∃ d, b = d + 1 := ⟨b - 1, by omega⟩
    obtain ⟨b', rfl⟩ : ∃ d, b' = d + 1 := ⟨b' - 1, by omega⟩
    intro ts hts
    by_cases hstop : ∀ t ∈ ts.head?, isSign t.kind = false
    · rw [chain_stop below _ left hstop, chain_stop below' _ left hstop]
      refine ⟨rfl, fun a rest ha => ?_⟩
      obtain ⟨-, rfl⟩ := Prod.mk.inj (Except.ok.inj ha)
      exact Nat.le_refl _
    · obtain ⟨op, rest, rfl, hop⟩ : ∃ op rest, ts = op :: rest ∧ isSign op.kind = true := by
        cases ts with
        | nil => exact absurd (by simp) hstop
        | cons op rest => exact ⟨op, rest, rfl, by simpa using hstop⟩
      have hbelow := h.mono (Nat.le_succ n)
      have hrest : Agree n 1
          (do let right ← below; chain isSign below b (.binary op op.text left right))
          (do let right ← below'; chain isSign below' b' (.binary op op.text left right)) :=
        hbelow.bind (fun right => ih hbelow (by omega) (by omega) _) (by omega)
      rw [List.length_cons] at hts ⊢
      obtain ⟨hsame, hlen⟩ := hrest rest (by omega)
      rw [chain_step below b left rest hop, chain_step below' b' left rest hop]
      refine ⟨hsame, fun a rest' ha => ?_⟩
      have := hlen a rest' ha
      omega

end

/-! ### From one strength to the next -/

section

variable {above : Nat → Parser (Expr Token)} {n : Nat}

/-- On at most `n` tokens, the parser of a strength reads off a token and leaves no operator of
that strength or more. -/
def Exhausts (n : Nat) (above : Nat → Parser (Expr Token)) : Prop :=
  ∀ least ts e rest, ts.length ≤ n → above least ts = .ok (e, rest) →
    rest.length + 1 ≤ ts.length ∧ StopsAt least rest

/-- The loop over the operators ends only where it has to. -/
theorem stopsAt_of_operations (habove : ∀ p, Agree n 1 (above p) (above p)) {least b : Nat}
    (hb : n ≤ b) {left e : Expr Token} {ts rest : List Token} (hts : ts.length ≤ n)
    (h : operations above least b left ts = .ok (e, rest)) : StopsAt least rest := by
  induction n generalizing b left ts with
  | zero =>
    obtain rfl : ts = [] := List.length_eq_zero_iff.mp (by omega)
    rw [operations_stop above b left (stopsAt_nil least)] at h
    obtain ⟨-, rfl⟩ := Prod.mk.inj (Except.ok.inj h)
    exact stopsAt_nil least
  | succ n ih =>
    by_cases hstop : StopsAt least ts
    · rw [operations_stop above b left hstop] at h
      obtain ⟨-, rfl⟩ := Prod.mk.inj (Except.ok.inj h)
      exact hstop
    · obtain ⟨b, rfl⟩ : ∃ d, b = d + 1 := ⟨b - 1, by omega⟩
      obtain ⟨op, us, p, rfl, hp, hleast⟩ := exists_of_not_stopsAt hstop
      rw [operations_step above b left us hp hleast, bind_apply] at h
      rw [List.length_cons] at hts
      rcases hright : above (p + 1) us with c | ⟨right, us'⟩
      · rw [hright] at h
        cases h
      · rw [hright] at h
        have hlen := (habove (p + 1) us (by omega)).2 right us' hright
        exact ih (fun p => (habove p).mono (Nat.le_succ n)) (by omega) (by omega) h

theorem exhausts_expression (bound : Nat) : Exhausts bound (expression bound) := by
  intro least ts e rest hts h
  refine ⟨(agree_expression (Nat.le_refl _) (Nat.le_refl _) least ts hts).2 e rest h, ?_⟩
  cases bound with
  | zero =>
    obtain rfl : ts = [] := List.length_eq_zero_iff.mp (by omega)
    cases h
  | succ bound =>
    rw [expression, bind_apply] at h
    rcases hleft : operand (expression bound 0) bound ts with c | ⟨left, us⟩
    · rw [hleft] at h
      cases h
    · rw [hleft] at h
      have hlen := (agree_operand (agree_expression (Nat.le_refl bound) (Nat.le_refl bound) 0)
        (starves_expression bound 0) (Nat.le_refl bound) (Nat.le_refl bound) ts hts).2 left us hleft
      exact stopsAt_of_operations
        (fun p => agree_expression (Nat.le_refl bound) (Nat.le_refl bound) p) (Nat.le_refl bound)
        (by omega) h

/-- The kind of token is an operator of strength `k`. -/
def hasStrength (k : Nat) (kind : Kind) : Bool := precedence? kind == some k

/-- **The operators from the strength `k` on are those from `k + 1` on, and then a chain of
operators of strength `k`.**  A right operand leaves no stronger operator behind, so behind an
operator of strength `k` the next one is of strength `k` too, or weaker. -/
theorem operations_succ (habove : Exhausts n above) (k : Nat) {b b' : Nat} (hb : n ≤ b)
    (hb' : n ≤ b') (left : Expr Token) {ts : List Token} (hts : ts.length ≤ n) :
    operations above k b left ts = (do
      let l ← operations above (k + 1) b left
      chain (hasStrength k) (above (k + 1)) b' l) ts := by
  induction n generalizing b b' left ts with
  | zero =>
    obtain rfl : ts = [] := List.length_eq_zero_iff.mp (by omega)
    rw [bind_apply, operations_stop above b left (stopsAt_nil k),
      operations_stop above b left (stopsAt_nil (k + 1))]
    exact (chain_stop _ b' left (by simp)).symm
  | succ n ih =>
    obtain ⟨b, rfl⟩ : ∃ d, b = d + 1 := ⟨b - 1, by omega⟩
    obtain ⟨b', rfl⟩ : ∃ d, b' = d + 1 := ⟨b' - 1, by omega⟩
    have habove' : Exhausts n above := fun p ts e rest hts => habove p ts e rest (by omega)
    by_cases hstop : StopsAt k ts
    · -- No operator of strength `k` or more comes next.
      have hstop' : StopsAt (k + 1) ts := fun t ht p hp => by
        have := hstop t ht p hp
        omega
      rw [bind_apply, operations_stop above _ left hstop, operations_stop above _ left hstop']
      refine (chain_stop _ (b' + 1) left fun t ht => ?_).symm
      rw [hasStrength, beq_eq_false_iff_ne]
      intro hp
      have := hstop t ht k hp
      omega
    · obtain ⟨op, rest, p, rfl, hp, hk⟩ := exists_of_not_stopsAt hstop
      rw [List.length_cons] at hts
      rw [operations_step above b left rest hp hk]
      by_cases heq : p = k
      · -- The next operator belongs to the chain.
        subst heq
        have hstop' : StopsAt (p + 1) (op :: rest) := fun t ht q hq => by
          obtain rfl : op = t := Option.some.inj ht
          obtain rfl : p = q := Option.some.inj (hp.symm.trans hq)
          omega
        rw [bind_apply, bind_apply, operations_stop above _ left hstop']
        dsimp only
        rw [chain_step _ b' left rest (by rw [hasStrength, hp]; exact beq_self_eq_true _),
          bind_apply]
        rcases hright : above (p + 1) rest with c | ⟨right, us⟩
        · rfl
        · obtain ⟨hlen, hend⟩ := habove (p + 1) rest right us (by omega) hright
          dsimp only
          rw [ih habove' (by omega) (show n ≤ b' by omega) _ (by omega), bind_apply,
            operations_stop above b _ hend]
      · -- The next operator is stronger, and so is all that its right operand leaves to `k + 1`.
        rw [bind_apply, bind_apply, operations_step above b left rest hp (show k + 1 ≤ p by omega),
          bind_apply]
        rcases hright : above (p + 1) rest with c | ⟨right, us⟩
        · rfl
        · obtain ⟨hlen, -⟩ := habove (p + 1) rest right us (by omega) hright
          dsimp only
          rw [ih habove' (by omega) (show n ≤ b' + 1 by omega) _ (by omega), bind_apply]

end

section

variable {n b b' : Nat} {below : Parser (Expr Token)}

/-- The climbing parser of one strength is a layer over that of the next. -/
theorem agree_layer (k : Nat) (hb : n ≤ b) (hb' : n ≤ b')
    (h : Agree (n + 1) 1 (expression (b + 1) (k + 1)) below) :
    Agree (n + 1) 1 (expression (b + 1) k) (layer (hasStrength k) below b') := by
  have hright : Agree n 1 (expression b (k + 1)) below :=
    (agree_expression hb (by omega) (k + 1)).trans (h.mono (Nat.le_succ n))
  have hsplit : Agree (n + 1) 1 (expression (b + 1) k) (do
      let l ← expression (b + 1) (k + 1)
      chain (hasStrength k) (expression b (k + 1)) b' l) := by
    intro ts hts
    refine ⟨?_, (agree_expression (Nat.succ_le_succ hb) (Nat.succ_le_succ hb) k ts hts).2⟩
    rw [expression, expression, bind_assoc, bind_apply, bind_apply]
    rcases hleft : operand (expression b 0) b ts with c | ⟨left, us⟩
    · rfl
    · have hlen := (agree_operand (agree_expression hb hb 0) (starves_expression b 0) hb hb ts
        hts).2 left us hleft
      have hexhausts : Exhausts n (expression b) := fun p ts e rest hts =>
        exhausts_expression b p ts e rest (by omega)
      exact operations_succ hexhausts k hb hb' left (by omega)
  exact hsplit.trans (h.bind (fun left => agree_chain hright hb' hb' left) (by omega))

end

/-! ### Three layers -/

theorem precedence?_bounds {k : Kind} {p : Nat} (h : precedence? k = some p) : 1 ≤ p ∧ p ≤ 3 := by
  unfold precedence? at h
  split at h <;> simp at h <;> omega

theorem hasStrength_three : hasStrength 3 = isPowerSign := by
  funext k
  cases k <;> rfl

theorem hasStrength_two : hasStrength 2 = isProductSign := by
  funext k
  cases k <;> rfl

theorem hasStrength_one : hasStrength 1 = isSumSign := by
  funext k
  cases k <;> rfl

/-- Above the strongest operators there are operands only. -/
theorem expression_four (bound : Nat) :
    expression (bound + 1) 4 = operand (expression bound 0) bound := by
  have hstop (left : Expr Token) : operations (expression bound) 4 bound left = pure left := by
    funext ts
    refine operations_stop _ bound left fun t _ p hp => ?_
    have := precedence?_bounds hp
    omega
  rw [expression]
  simp only [hstop, bind_pure]

/-- Below the weakest operators there is nothing more to read. -/
theorem layer_zero (below : Parser (Expr Token)) (bound : Nat) :
    layer (hasStrength 0) below bound = below := by
  have hstop (left : Expr Token) : chain (hasStrength 0) below bound left = pure left := by
    funext ts
    refine chain_stop below bound left fun t _ => ?_
    rw [hasStrength, beq_eq_false_iff_ne]
    intro hp
    have := precedence?_bounds hp
    omega
  rw [layer]
  simp only [hstop, bind_pure]

/-- The climbing parser agrees with the one that reads by layers. -/
theorem agree_sum {n b b' : Nat} (hb : n ≤ b) (hb' : n ≤ b') :
    Agree n 1 (expression b 0) (sum b') := by
  induction n generalizing b b' with
  | zero =>
    intro ts hts
    obtain rfl : ts = [] := List.length_eq_zero_iff.mp (by omega)
    cases b <;> cases b' <;> exact ⟨rfl, fun _ _ h => nomatch h⟩
  | succ n ih =>
    obtain ⟨b, rfl⟩ : ∃ d, b = d + 1 := ⟨b - 1, by omega⟩
    obtain ⟨b', rfl⟩ : ∃ d, b' = d + 1 := ⟨b' - 1, by omega⟩
    have hb : n ≤ b := by omega
    have hb' : n ≤ b' := by omega
    -- Between brackets there is a token less, and from the operands it goes down layer by layer.
    have hoperand : Agree (n + 1) 1 (expression (b + 1) 4) (operand (sum b') b') := by
      rw [expression_four]
      exact agree_operand (ih hb hb') (starves_expression b 0) hb hb'
    have hpower := agree_layer 3 hb hb' hoperand
    have hproduct := agree_layer 2 hb hb' hpower
    have hsum := agree_layer 1 hb hb' hproduct
    have hwhole := agree_layer 0 hb hb' hsum
    rw [hasStrength_three, hasStrength_two, hasStrength_one, layer_zero] at hwhole
    exact hwhole

/-- **The climbing parser reads what the grammar says.**  On any tokens the parser of expressions
and the parser that goes by the layers of the grammar give the same answer: the same tree and the
same tokens left, or the same complaint about the same token.  How far their bounds exceed the
number of tokens makes no difference. -/
theorem wholeExpression_eq_sum (ts : List Token) (more more' : Nat) :
    wholeExpression (ts.length + more) ts = sum (ts.length + more') ts :=
  (agree_sum (Nat.le_add_right _ _) (Nat.le_add_right _ _) ts (Nat.le_refl _)).1

end Parser

end ListCalc
