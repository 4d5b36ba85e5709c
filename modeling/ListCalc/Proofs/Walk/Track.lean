/-
Walks that keep to a parser.

A cursor that has not come to the end of the source sees the tokens before the
first mark of the end (`Stretch.Sees`), and these are all that a parser is given.
`Tracks` says that a walk from there does what the parser does: it comes to an
outcome, looks at no token that does not exist, and

* where the parser leaves some of the tokens, the cursor stands in front of them;
* where the parser complains, the walk stops with that error, and the token of a
  complaint without one is the first mark of the end.

The relation also counts the tokens that are read off at least.  They are what
makes the loops of a walk end: each turn leaves fewer tokens in front of the mark,
whatever stands behind it.
-/
import ListCalc.Proofs.Parser
import ListCalc.Proofs.Walk

namespace ListCalc

/-- The items behind those that have been read, which come first in the answer. -/
theorem Parser.append_moreItems {α : Type} (item : Parser α) (close : Kind) (b : Nat)
    (read : List α) :
    (read ++ ·) <$> moreItems item close (b + 1) = (do
      if ← nextIs close then
        let _ ← token close
        return read
      else
        let _ ← token .comma
        let a ← item
        ((read ++ [a]) ++ ·) <$> moreItems item close b) := by
  rw [moreItems, map_bind]
  refine bind_congr fun found => ?_
  cases found <;> simp

namespace Walk

variable {α β : Type}

/-! ### Sequences of walks -/

theorem bind_apply (w : Walk α) (f : α → Walk β) (ts : List Token) (pos : Nat) :
    (w >>= f) ts pos = match w ts pos with
      | some (.ok a, pos') => f a ts pos'
      | some (.error e, pos') => some (.error e, pos')
      | none => none := by
  show Option.bind (w ts pos) _ = _
  rcases w ts pos with _ | ⟨e | a, pos'⟩ <;> rfl

theorem bind_of_ok {w : Walk α} {ts : List Token} {pos pos' : Nat} {a : α}
    (h : w ts pos = some (.ok a, pos')) (f : α → Walk β) : (w >>= f) ts pos = f a ts pos' := by
  rw [bind_apply, h]

/-! ### What the cursor sees -/

/-- A list of tokens and a mark of the end in it. -/
structure Stretch where
  tokens : List Token
  last : Nat
  eof : Token
  at_last : tokens[last]? = some eof
  eof_kind : eof.kind = .eof

namespace Stretch

variable {s : Stretch} {pos : Nat} {t : Token} {inside : List Token}

/-- From the cursor on stand the tokens `inside`, and then the first mark of the end. -/
structure Sees (s : Stretch) (pos : Nat) (inside : List Token) : Prop where
  reach : pos + inside.length = s.last
  split : s.tokens.drop pos = inside ++ s.tokens.drop s.last
  kind_ne : ∀ t ∈ inside, t.kind ≠ .eof

theorem Sees.tail (h : s.Sees pos (t :: inside)) : s.Sees (pos + 1) inside := by
  refine ⟨?_, ?_, fun u hu => h.kind_ne u (List.mem_cons_of_mem t hu)⟩
  · have := h.reach
    rw [List.length_cons] at this
    omega
  · rw [← List.tail_drop, h.split]
    rfl

theorem drop_last (s : Stretch) :
    s.tokens.drop s.last = s.eof :: s.tokens.drop (s.last + 1) := by
  obtain ⟨hlt, heof⟩ := List.getElem?_eq_some_iff.mp s.at_last
  rw [List.drop_eq_getElem_cons hlt, heof]

theorem Sees.getElem? (h : s.Sees pos inside) : s.tokens[pos]? = some (inside.headD s.eof) := by
  rw [← List.head?_drop, h.split, s.drop_last]
  cases inside <;> rfl

theorem Sees.lt (h : s.Sees pos inside) : pos < s.tokens.length :=
  (List.getElem?_eq_some_iff.mp h.getElem?).1

/-- Tokens that are split at a mark of the end are seen from in front of them. -/
theorem exists_sees {ts more : List Token} {eof : Token} (h : ts.drop pos = inside ++ eof :: more)
    (heof : eof.kind = .eof) (hinside : ∀ t ∈ inside, t.kind ≠ .eof) :
    ∃ s : Stretch, s.tokens = ts ∧ s.eof = eof ∧ s.Sees pos inside := by
  have hlast : ts.drop (pos + inside.length) = eof :: more := by
    rw [← List.drop_drop, h, List.drop_left]
  have hat : ts[pos + inside.length]? = some eof := by
    rw [← List.head?_drop, hlast]
    rfl
  exact ⟨⟨ts, pos + inside.length, eof, hat, heof⟩, rfl, rfl, rfl, by rw [h, hlast], hinside⟩

/-- The mark of the end is of no other kind. -/
theorem headD_kind (s : Stretch) {k : Kind} (hk : k ≠ .eof) (inside : List Token) :
    ((inside.headD s.eof).kind == k) = inside.head?.any (·.kind == k) := by
  cases inside with
  | nil => exact beq_false_of_ne (s.eof_kind ▸ hk.symm)
  | cons t inside => rfl

end Stretch

section

variable {s : Stretch} {pos : Nat} {t : Token} {inside : List Token}

theorem current_apply (h : s.Sees pos inside) :
    current s.tokens pos = some (.ok (inside.headD s.eof), pos) := by
  rw [current, h.getElem?]

theorem ahead_apply (h : s.Sees pos (t :: inside)) :
    ahead s.tokens pos = some (.ok (inside.headD s.eof), pos) := by
  rw [ahead, if_pos h.tail.lt, h.tail.getElem?]

theorem advance_apply (h : s.Sees pos (t :: inside)) :
    advance s.tokens pos = some (.ok (), pos + 1) := by
  have hlt := h.tail.lt
  rw [advance, if_pos (by omega)]

theorem nextIs_apply {k : Kind} (hk : k ≠ .eof) (h : s.Sees pos inside) :
    nextIs k s.tokens pos = some (.ok (inside.head?.any (·.kind == k)), pos) := by
  rw [nextIs, bind_of_ok (current_apply h), ← s.headD_kind hk]
  rfl

/-- The complaint of a parser that gives up in front of some tokens. -/
def complaint (otherwise : Token → ParseError.Kind) (what : String) : List Token → Complaint
  | [] => ⟨.cutShort, none, what⟩
  | t :: _ => ⟨otherwise t, some t, what⟩

theorem fail_apply (h : s.Sees pos inside) (otherwise : Token → ParseError.Kind) (what : String) :
    (fail otherwise what : Walk α) s.tokens pos
      = some (.error (.error ((complaint otherwise what inside).toError s.eof)), pos) := by
  rw [fail, bind_of_ok (current_apply h)]
  cases inside with
  | nil =>
    rw [List.headD_nil, if_pos s.eof_kind]
    rfl
  | cons t inside =>
    have ht : t.kind ≠ .eof := h.kind_ne t List.mem_cons_self
    rw [List.headD_cons, if_neg ht]
    rfl

end

/-! ### Walks and parsers -/

/-- The outcome of a walk is the answer of a parser to `len` tokens, of which it reads off at
least `k`, and the cursor is in range. -/
inductive Stretch.Matches (s : Stretch) (len k : Nat) :
    Except Complaint (α × List Token) → Option (Except Stop α × Nat) → Prop where
  | ok {a : α} {rest : List Token} {pos : Nat} (sees : s.Sees pos rest)
      (least : rest.length + k ≤ len) : Matches s len k (.ok (a, rest)) (some (.ok a, pos))
  | error {c : Complaint} {pos : Nat} (lt : pos < s.tokens.length) :
      Matches s len k (.error c) (some (.error (.error (c.toError s.eof)), pos))

/-- Wherever the cursor sees at most `n` tokens before the end, of which the parser reads off at
least `k`, the walk has the outcome of the parser. -/
def Tracks (n k : Nat) (p : Parser α) (w : Walk α) : Prop :=
  ∀ (s : Stretch) (pos : Nat) (inside : List Token), s.Sees pos inside → inside.length ≤ n →
    s.Matches inside.length k (p inside) (w s.tokens pos)

variable {n m k j i : Nat}

theorem Stretch.Matches.mono {s : Stretch} {len len' : Nat}
    {x : Except Complaint (α × List Token)} {y : Option (Except Stop α × Nat)}
    (h : s.Matches len k x y) (hj : len + j ≤ len' + k) : s.Matches len' j x y := by
  cases h with
  | ok sees least => exact .ok sees (by omega)
  | error lt => exact .error lt

theorem Tracks.mono {p : Parser α} {w : Walk α} (h : Tracks n k p w) (hm : m ≤ n) (hj : j ≤ k) :
    Tracks m j p w :=
  fun s pos inside hsees hlen => (h s pos inside hsees (by omega)).mono (by omega)

/-- Behind the token that the cursor moves past, the walk goes on like the parser. -/
theorem Tracks.behind {p : Parser α} {w : Walk α} (h : Tracks n k p w) {s : Stretch} {pos : Nat}
    {t : Token} {inside : List Token} (hsees : s.Sees pos (t :: inside))
    (hlen : (t :: inside).length ≤ n + 1) :
    s.Matches (t :: inside).length (k + 1) (p inside) ((advance >>= fun _ => w) s.tokens pos) := by
  rw [bind_of_ok (advance_apply hsees)]
  rw [List.length_cons] at hlen ⊢
  exact (h s (pos + 1) inside hsees.tail (by omega)).mono (by omega)

theorem tracks_pure (a : α) : Tracks n 0 (pure a) (pure a) :=
  fun _ _ _ hsees _ => .ok hsees (Nat.le_refl _)

theorem tracks_bind {p : Parser α} {w : Walk α} {r : α → Parser β} {f : α → Walk β}
    (hp : Tracks n k p w) (hr : ∀ a, Tracks m j (r a) (f a)) (hm : n ≤ m + k) (hi : i ≤ k + j) :
    Tracks n i (p >>= r) (w >>= f) := by
  intro s pos inside hsees hlen
  have hmatches := hp s pos inside hsees hlen
  rw [Parser.bind_apply, bind_apply]
  generalize p inside = x, w s.tokens pos = y at hmatches
  cases hmatches with
  | error lt => exact .error lt
  | @ok a rest pos' sees least => exact (hr a s pos' rest sees (by omega)).mono (by omega)

/-- The tokens that the first parser reads off are the ones that count. -/
theorem tracks_first {p : Parser α} {w : Walk α} {r : α → Parser β} {f : α → Walk β}
    (hp : Tracks n k p w) (hr : ∀ a, Tracks n 0 (r a) (f a)) : Tracks n k (p >>= r) (w >>= f) :=
  tracks_bind hp hr (Nat.le_add_right n k) (Nat.le_refl k)

/-- The tokens that the second parser reads off are the ones that count. -/
theorem tracks_next {p : Parser α} {w : Walk α} {r : α → Parser β} {f : α → Walk β}
    (hp : Tracks n k p w) (hr : ∀ a, Tracks n j (r a) (f a)) : Tracks n j (p >>= r) (w >>= f) :=
  tracks_bind hp hr (Nat.le_add_right n k) (Nat.le_add_left j k)

theorem Stretch.Matches.map {s : Stretch} {len pos : Nat} {inside : List Token} {p : Parser α}
    {w : Walk α} (h : s.Matches len k (p inside) (w s.tokens pos)) (f : α → β) :
    s.Matches len k ((f <$> p) inside) ((f <$> w) s.tokens pos) := by
  rw [map_eq_pure_bind, map_eq_pure_bind, Parser.bind_apply, bind_apply]
  generalize p inside = x, w s.tokens pos = y at h
  cases h with
  | error lt => exact .error lt
  | ok sees least => exact .ok sees least

/-! ### Single tokens -/

theorem tracks_unexpected : Tracks n k (Parser.unexpected : Parser α) unexpected := by
  intro s pos inside hsees _
  rw [unexpected, fail_apply hsees]
  cases inside with
  | nil => exact .error hsees.lt
  | cons t inside => exact .error hsees.lt

/-- A parser of one token, which complains about all others in the same way. -/
theorem tracks_take {kind : Kind} (hkind : kind ≠ .eof) {p : Parser Token}
    {fault : ParseError.Kind} {what : String} (hnil : p [] = .error ⟨.cutShort, none, what⟩)
    (hcons : ∀ t ts, p (t :: ts)
      = if t.kind = kind then .ok (t, ts) else .error ⟨fault, some t, what⟩) :
    Tracks n 1 p (take kind fault what) := by
  intro s pos inside hsees _
  rw [take, bind_of_ok (current_apply hsees)]
  cases inside with
  | nil =>
    rw [hnil, List.headD_nil, if_neg (s.eof_kind ▸ hkind.symm), fail_apply hsees]
    exact .error hsees.lt
  | cons t inside =>
    rw [hcons, List.headD_cons]
    by_cases hk : t.kind = kind
    · rw [if_pos hk, if_pos hk, bind_of_ok (advance_apply hsees)]
      exact .ok hsees.tail (Nat.le_refl _)
    · rw [if_neg hk, if_neg hk, fail_apply hsees]
      exact .error hsees.lt

theorem tracks_token {kind : Kind} (hkind : kind ≠ .eof) :
    Tracks n 1 (Parser.token kind) (expect kind) :=
  tracks_take hkind rfl fun _ _ => rfl

theorem tracks_ident (what : String) : Tracks n 1 (Parser.ident what) (ident what) :=
  tracks_take (by decide) rfl fun _ _ => rfl

/-- What follows if the next token is of a kind, which is read off, and what follows if not. -/
theorem tracks_ifNext {kind : Kind} (hkind : kind ≠ .eof) {p q : Parser α} {w v : Walk α}
    (hp : Tracks m j p w) (hq : Tracks n i q v) (hm : n ≤ m + 1) (hi : i ≤ j + 1) :
    Tracks n i
      (do if ← Parser.nextIs kind then let _ ← Parser.token kind; p else q)
      (do if ← nextIs kind then advance; w else v) := by
  intro s pos inside hsees hlen
  rw [bind_of_ok (nextIs_apply hkind hsees)]
  show s.Matches _ _ ((if inside.head?.any (·.kind == kind) then _ else q : Parser α) inside) _
  cases hnext : inside.head?.any (·.kind == kind) with
  | false => exact hq s pos inside hsees hlen
  | true =>
    cases inside with
    | nil => cases hnext
    | cons t inside =>
      have ht : t.kind = kind := by simpa using hnext
      rw [if_pos rfl, if_pos rfl, Parser.bind_apply, Parser.token, if_pos ht]
      exact (hp.behind hsees (by omega)).mono (by omega)

/-! ### Tokens that are skipped -/

theorem tracks_newlines : Tracks n 0 Parser.newlines Phrase.newlines.walk := by
  intro s pos inside hsees hlen
  clear hlen
  show s.Matches _ _ (.ok ((), inside.dropWhile (·.kind == .newline))) _
  induction inside generalizing pos with
  | nil =>
    rw [Phrase.walk, bind_of_ok (nextIs_apply (by decide) hsees)]
    exact .ok hsees (Nat.le_refl _)
  | cons t inside ih =>
    rw [Phrase.walk, bind_of_ok (nextIs_apply (by decide) hsees), List.dropWhile_cons]
    show s.Matches _ _ _ ((if (t.kind == .newline) = true then _ else _ : Walk Unit) _ _)
    cases ht : t.kind == .newline with
    | false => exact .ok hsees (Nat.le_refl _)
    | true =>
      rw [if_pos rfl, if_pos rfl, bind_of_ok (advance_apply hsees)]
      exact (ih (pos + 1) hsees.tail).mono (by rw [List.length_cons]; omega)

/-! ### Sequences of items -/

/-- Where no token is left, a walk that needs one goes no further. -/
theorem tracks_needed {p : Parser α} {w : Walk α} (hp : Tracks 0 1 p w) (r : α → Parser β)
    (f : α → Walk β) : Tracks 0 k (p >>= r) (w >>= f) := by
  intro s pos inside hsees hlen
  have hmatches := hp s pos inside hsees hlen
  rw [Parser.bind_apply, bind_apply]
  generalize p inside = x, w s.tokens pos = y at hmatches
  cases hmatches with
  | error lt => exact .error lt
  | ok _ least => omega

section

variable {item : Parser α} {step : Walk α} {close : Kind} {b : Nat} {read : List α}

variable (loop : List α → Walk (List α)) (hclose : close ≠ .eof)
  (hloop : ∀ read, read ≠ [] → loop read = do
    if ← nextIs close then
      advance
      return read
    else
      let _ ← expect .comma
      let a ← step
      loop (read ++ [a]))
include hclose hloop

/-- A loop over items tracks the parser of those that are left. -/
theorem tracks_moreItems (hitem : Tracks n k item step) (hb : n ≤ b) (hread : read ≠ []) :
    Tracks n 1 ((read ++ ·) <$> Parser.moreItems item close b) (loop read) := by
  have hcomma : ∀ {n}, Tracks n 1 (Parser.token .comma) (expect .comma) := tracks_token (by decide)
  rw [hloop read hread]
  induction n generalizing b read with
  | zero =>
    intro s pos inside hsees hlen
    obtain rfl : inside = [] := List.length_eq_zero_iff.mp (by omega)
    have hend : ((read ++ ·) <$> Parser.moreItems item close b) []
        = (Parser.token .comma >>= fun _ => pure read) [] := by
      cases b <;> rfl
    rw [bind_of_ok (nextIs_apply hclose hsees), hend]
    exact tracks_needed hcomma _ _ s pos [] hsees (Nat.le_refl 0)
  | succ n ih =>
    obtain ⟨b, rfl⟩ : ∃ d, b = d + 1 := ⟨b - 1, by omega⟩
    have hitem' := hitem.mono (Nat.le_succ n) (Nat.le_refl k)
    rw [Parser.append_moreItems]
    refine tracks_ifNext hclose (tracks_pure read) ?_ (Nat.le_refl _) (Nat.le_refl 1)
    -- The comma is one token less for the items behind it.
    refine tracks_bind (j := 1) hcomma (fun _ => ?_) (Nat.le_refl _) (Nat.le_succ 1)
    refine tracks_next hitem' fun a => ?_
    have hne : read ++ [a] ≠ [] := by simp
    rw [hloop _ hne]
    exact ih hitem' (by omega) hne

/-- A loop over items tracks the parser of all of them.  The first item may be read in another
way than those behind a comma. -/
theorem tracks_items {item' : Parser α} {start : Walk α}
    (hnil : loop [] = do
      if ← nextIs close then
        advance
        return []
      else
        let a ← start
        loop [a])
    (hstart : Tracks n j item' start) (hitem : Tracks n k item step) (hb : n ≤ b) :
    Tracks n 1
      (do
        if ← Parser.nextIs close then
          let _ ← Parser.token close
          return []
        else
          let a ← item'
          let rest ← Parser.moreItems item close b
          return a :: rest)
      (loop []) := by
  rw [hnil]
  refine tracks_ifNext hclose (tracks_pure []) ?_ (Nat.le_succ n) (Nat.le_refl 1)
  refine tracks_next hstart fun a => ?_
  have hrest := tracks_moreItems loop hclose hloop hitem hb (List.cons_ne_nil a [])
  rwa [map_eq_pure_bind] at hrest

end

end Walk

end ListCalc
