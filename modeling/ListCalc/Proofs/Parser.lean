/-
What parsers depend on.

A parser looks at the kinds and texts of its tokens and at nothing else: not at
their places, and not at what stands behind a line end once it has read all it
needs.  Nor does it matter how large its bound is, as long as the bound covers
the tokens.  One relation says all of this at once.  A `Change` of the input puts
every token at another place and lets more tokens follow, the first of them a line
end; `Follows` says that one parser answers to the changed input what another one
answers to the input itself:

* what was read off is read off again, and what was left is left, with the new
  tokens behind it;
* a complaint is repeated, unless it is only that the tokens ran out and there are
  more of them now.

The relation also counts the tokens that are read off at least, which is what
keeps the bounds of recursive parsers sufficient.  `FollowsLoosely` is for parsers
that end by skipping line ends and so may run into the new tokens.  Under no change
at all the relation is plain agreement, `Agree`.
-/
import ListCalc.Parser

namespace ListCalc

/-- The token at another place. -/
def Token.relocate (g : Place → Place) (t : Token) : Token := { t with place := g t.place }

@[simp] theorem Token.relocate_kind (g : Place → Place) (t : Token) :
    (t.relocate g).kind = t.kind := rfl

/-- The complaint about the token at another place. -/
def Complaint.relocate (g : Place → Place) (c : Complaint) : Complaint :=
  { c with token? := c.token?.map (Token.relocate g) }

theorem Complaint.relocate_same (c : Complaint) : c.relocate (fun p => p) = c := by
  obtain ⟨kind, token?, expected⟩ := c
  cases token? <;> rfl

namespace Parser

variable {α β γ δ : Type}

theorem map_apply (f : α → β) (p : Parser α) (ts : List Token) :
    (f <$> p) ts = match p ts with
      | .ok (a, rest) => .ok (f a, rest)
      | .error c => .error c := rfl

instance : LawfulMonad Parser := by
  refine LawfulMonad.mk' Parser (fun p => ?_) (fun a f => rfl) (fun p f g => ?_)
  · funext ts
    rw [map_apply]
    rcases p ts with _ | ⟨a, rest⟩ <;> rfl
  · funext ts
    simp only [bind_apply]
    rcases p ts with _ | ⟨a, rest⟩ <;> rfl

theorem bind_of_ok {p : Parser α} {r : α → Parser β} {ts mid : List Token} {a : α}
    (h : p ts = .ok (a, mid)) : (p >>= r) ts = r a mid := by
  rw [bind_apply, h]

/-! ### Parsers that need a token -/

/-- Without tokens, the parser complains that they ran out. -/
def Starves (p : Parser α) : Prop :=
  ∃ c : Complaint, p [] = .error c ∧ c.kind = .cutShort

theorem starves_token (k : Kind) : Starves (token k) := ⟨_, rfl, rfl⟩

theorem starves_bind {p : Parser α} (hp : Starves p) (r : α → Parser β) : Starves (p >>= r) := by
  obtain ⟨c, hc, hk⟩ := hp
  exact ⟨c, by rw [bind_apply, hc], hk⟩

theorem starves_newlines_bind {r : Unit → Parser α} (hr : Starves (r ())) :
    Starves (newlines >>= r) := hr

theorem starves_moreItems (item : Parser α) (close : Kind) (bound : Nat) :
    Starves (moreItems item close bound) := by
  cases bound <;> exact ⟨_, rfl, rfl⟩

theorem starves_items {item : Parser α} (hitem : Starves item) (close : Kind) (bound : Nat) :
    Starves (items item close bound) :=
  starves_bind hitem _

/-! ### Changes of the input -/

/-- The tokens are at other places and more of them follow, the first one a line end. -/
structure Change where
  place : Place → Place
  more : List Token
  startsLine : ∀ t ∈ more.head?, t.kind = .newline

namespace Change

variable {c : Change} {n m k j i : Nat} {F : α → β} {G : γ → δ}

/-- The changed tokens. -/
def apply (c : Change) (ts : List Token) : List Token :=
  ts.map (Token.relocate c.place) ++ c.more

@[simp] theorem apply_cons (c : Change) (t : Token) (ts : List Token) :
    c.apply (t :: ts) = t.relocate c.place :: c.apply ts := rfl

@[simp] theorem apply_nil (c : Change) : c.apply [] = c.more := rfl

/-- How the answer to `len` tokens, of which at least `k` are read off, carries over to the
changed ones.  If `loose`, an answer that leaves no tokens need not carry over where more of them
follow. -/
inductive Carries (c : Change) (loose : Prop) (len k : Nat) (F : α → β) :
    Except Complaint (α × List Token) → Except Complaint (β × List Token) → Prop where
  | ok {a : α} {rest : List Token} (h : rest.length + k ≤ len) :
      Carries c loose len k F (.ok (a, rest)) (.ok (F a, c.apply rest))
  | error {e : Complaint} : Carries c loose len k F (.error e) (.error (e.relocate c.place))
  | cut {e : Complaint} {y : Except Complaint (β × List Token)} (h : e.kind = .cutShort)
      (hmore : c.more ≠ []) : Carries c loose len k F (.error e) y
  | used {a : α} {y : Except Complaint (β × List Token)} (h : loose) (hk : k ≤ len)
      (hmore : c.more ≠ []) : Carries c loose len k F (.ok (a, [])) y

/-- On at most `n` tokens, of which it reads off at least `k`, `q` answers to the changed input
what `p` answers to the input. -/
def FollowsIf (c : Change) (loose : Prop) (n k : Nat) (F : α → β) (p : Parser α)
    (q : Parser β) : Prop :=
  ∀ ts, ts.length ≤ n → Carries c loose ts.length k F (p ts) (q (c.apply ts))

/-- Every answer of `p` carries over to `q`. -/
abbrev Follows (c : Change) (n k : Nat) (F : α → β) (p : Parser α) (q : Parser β) : Prop :=
  c.FollowsIf False n k F p q

/-- Every answer of `p` that leaves tokens carries over to `q`. -/
abbrev FollowsLoosely (c : Change) (n k : Nat) (F : α → β) (p : Parser α) (q : Parser β) : Prop :=
  c.FollowsIf True n k F p q

/-- Fewer tokens may be said to be read off, and more to have been there. -/
theorem Carries.mono {L : Prop} {len len' : Nat} {x : Except Complaint (α × List Token)}
    {y : Except Complaint (β × List Token)} (h : Carries c L len k F x y)
    (hj : len + j ≤ len' + k) : Carries c L len' j F x y := by
  cases h with
  | ok h => exact .ok (by omega)
  | error => exact .error
  | cut h hmore => exact .cut h hmore
  | used h hk hmore => exact .used h (by omega) hmore

theorem FollowsIf.mono {L : Prop} {p : Parser α} {q : Parser β} (h : c.FollowsIf L n k F p q)
    (hm : m ≤ n) (hj : j ≤ k) : c.FollowsIf L m j F p q :=
  fun ts hts => (h ts (by omega)).mono (by omega)

theorem Follows.loosely {p : Parser α} {q : Parser β} (h : c.Follows n k F p q) :
    c.FollowsLoosely n k F p q := by
  intro ts hts
  have hcarries := h ts hts
  generalize p ts = x, q (c.apply ts) = y at hcarries
  cases hcarries with
  | ok h => exact .ok h
  | error => exact .error
  | cut h hmore => exact .cut h hmore
  | used h _ _ => exact h.elim

/-- A complaint that the tokens ran out is repeated, or there are more tokens. -/
theorem Carries.atEnd {L : Prop} {len : Nat} {q : Parser β} {e : Complaint}
    (hq : q [] = .error e) (hkind : e.kind = .cutShort) (htoken : e.token? = none) :
    Carries c L len k F (.error e) (q (c.apply [])) := by
  rw [apply_nil]
  by_cases hmore : c.more = []
  · -- Nothing was added, and a complaint without a token has no place.
    have he : e.relocate c.place = e := by
      obtain ⟨kind, token?, expected⟩ := e
      obtain rfl : token? = none := htoken
      rfl
    have hsame : Carries c L len k F (.error e) (.error (e.relocate c.place)) := .error
    rw [hmore, hq]
    rwa [he] at hsame
  · exact .cut hkind hmore

/-! ### Sequences -/

theorem follows_pure {L : Prop} (a : α) : c.FollowsIf L n 0 F (pure a) (pure (F a)) :=
  fun _ _ => .ok (Nat.le_refl _)

/-- Behind a parser that may use up the tokens stands one that needs a token. -/
theorem followsIf_bind {L L' : Prop} {p : Parser α} {q : Parser β} {r : α → Parser γ}
    {s : β → Parser δ} (hp : c.FollowsIf L n k F p q)
    (hr : ∀ a, c.FollowsIf L' m j G (r a) (s (F a))) (hend : L → ∀ a, Starves (r a))
    (hm : n ≤ m + k) (hi : i ≤ k + j) : c.FollowsIf L' n i G (p >>= r) (q >>= s) := by
  intro ts hts
  have hcarries := hp ts hts
  rw [bind_apply, bind_apply]
  generalize p ts = x, q (c.apply ts) = y at hcarries
  cases hcarries with
  | @ok a rest h =>
    have hrest := hr a rest (by omega)
    generalize hx : r a rest = x, hy : s (F a) (c.apply rest) = y at hrest
    simp only [hx, hy]
    cases hrest with
    | ok h' => exact .ok (by omega)
    | error => exact .error
    | cut h' hmore => exact .cut h' hmore
    | used h' hj hmore => exact .used h' (by omega) hmore
  | error => exact .error
  | cut h hmore => exact .cut h hmore
  | @used a _ h hk hmore =>
    -- The tokens are used up, and the second parser says so.
    obtain ⟨e, he, hcut⟩ := hend h a
    simp only [he]
    exact .cut hcut hmore

theorem follows_bind {L : Prop} {p : Parser α} {q : Parser β} {r : α → Parser γ}
    {s : β → Parser δ} (hp : c.Follows n k F p q) (hr : ∀ a, c.FollowsIf L m j G (r a) (s (F a)))
    (hm : n ≤ m + k) (hi : i ≤ k + j) : c.FollowsIf L n i G (p >>= r) (q >>= s) :=
  followsIf_bind hp hr False.elim hm hi

/-- The tokens that the first parser reads off are the ones that count. -/
theorem follows_first {L : Prop} {p : Parser α} {q : Parser β} {r : α → Parser γ}
    {s : β → Parser δ} (hp : c.Follows n k F p q) (hr : ∀ a, c.FollowsIf L n 0 G (r a) (s (F a))) :
    c.FollowsIf L n k G (p >>= r) (q >>= s) :=
  follows_bind hp hr (Nat.le_add_right n k) (Nat.le_refl k)

/-- The tokens that the second parser reads off are the ones that count. -/
theorem follows_next {L : Prop} {p : Parser α} {q : Parser β} {r : α → Parser γ}
    {s : β → Parser δ} (hp : c.Follows n k F p q) (hr : ∀ a, c.FollowsIf L n j G (r a) (s (F a))) :
    c.FollowsIf L n j G (p >>= r) (q >>= s) :=
  follows_bind hp hr (Nat.le_add_right n k) (Nat.le_add_left j k)

theorem follows_map {L : Prop} {p : Parser α} {q : Parser β} {f : α → γ} {f' : β → δ}
    (hp : c.FollowsIf L n k F p q) (hf : ∀ a, f' (F a) = G (f a)) :
    c.FollowsIf L n k G (f <$> p) (f' <$> q) := by
  intro ts hts
  have hcarries := hp ts hts
  rw [map_apply, map_apply]
  generalize p ts = x, q (c.apply ts) = y at hcarries
  cases hcarries with
  | @ok a rest h =>
    simp only [hf]
    exact .ok h
  | error => exact .error
  | cut h hmore => exact .cut h hmore
  | used h hk hmore => exact .used h hk hmore

theorem follows_ite {L : Prop} {b : Bool} {p p' : Parser α} {q q' : Parser β}
    (hp : c.FollowsIf L n k F p q) (hp' : c.FollowsIf L n k F p' q') :
    c.FollowsIf L n k F (if b then p else p') (if b then q else q') := by
  cases b
  · exact hp'
  · exact hp

/-! ### Single tokens -/

theorem follows_token (kind : Kind) :
    c.Follows n 1 (Token.relocate c.place) (token kind) (token kind) := by
  intro ts _
  cases ts with
  | nil => exact Carries.atEnd rfl rfl rfl
  | cons t ts =>
    rw [apply_cons, token, token, Token.relocate_kind]
    by_cases hk : t.kind = kind
    · rw [if_pos hk, if_pos hk]
      exact .ok (Nat.le_refl _)
    · rw [if_neg hk, if_neg hk]
      exact .error

theorem follows_ident (what : String) :
    c.Follows n 1 (Token.relocate c.place) (ident what) (ident what) := by
  intro ts _
  cases ts with
  | nil => exact Carries.atEnd rfl rfl rfl
  | cons t ts =>
    rw [apply_cons, ident, ident, Token.relocate_kind]
    by_cases hk : t.kind = .ident
    · rw [if_pos hk, if_pos hk]
      exact .ok (Nat.le_refl _)
    · rw [if_neg hk, if_neg hk]
      exact .error

/-- No token behind the end is of a kind other than a line end. -/
theorem head?_apply_any {kind : Kind} (hkind : kind ≠ .newline) (c : Change) (ts : List Token) :
    (c.apply ts).head?.any (·.kind == kind) = ts.head?.any (·.kind == kind) := by
  cases ts with
  | cons t ts => rfl
  | nil =>
    rw [apply_nil]
    cases hmore : c.more with
    | nil => rfl
    | cons t ts =>
      have ht : t.kind = .newline := c.startsLine t (by simp [hmore])
      simp [ht, hkind.symm]

theorem follows_nextIs {kind : Kind} (hkind : kind ≠ .newline) :
    c.Follows n 0 (fun b => b) (nextIs kind) (nextIs kind) := by
  intro ts _
  rw [nextIs, nextIs, head?_apply_any hkind]
  exact .ok (Nat.le_refl _)

theorem followsLoosely_newlines : c.FollowsLoosely n 0 (fun u => u) newlines newlines := by
  intro ts _
  have hmap : (ts.map (Token.relocate c.place)).dropWhile (·.kind == .newline)
      = (ts.dropWhile (·.kind == .newline)).map (Token.relocate c.place) := List.dropWhile_map
  have hlen := (List.dropWhile_suffix (l := ts) (·.kind == .newline)).length_le
  rw [newlines, newlines, apply, List.dropWhile_append, hmap]
  cases hts : ts.dropWhile (·.kind == .newline) with
  | nil =>
    -- Only line ends: those that were added are skipped as well.
    by_cases hmore : c.more = []
    · have hcarries : Carries c True ts.length 0 (fun u : Unit => u) (.ok ((), []))
          (.ok ((), c.apply [])) := .ok (Nat.zero_le _)
      rw [apply_nil, hmore] at hcarries
      rw [hmore]
      exact hcarries
    · exact .used trivial (Nat.zero_le _) hmore
  | cons t us =>
    rw [hts] at hlen
    exact .ok hlen

/-- Behind line ends stands a parser that needs a token. -/
theorem follows_newlines_bind {L : Prop} {r : Unit → Parser α} {s : Unit → Parser β}
    (hr : c.FollowsIf L n k F (r ()) (s ())) (hend : Starves (r ())) :
    c.FollowsIf L n k F (newlines >>= r) (newlines >>= s) :=
  followsIf_bind followsLoosely_newlines (fun _ => hr) (fun _ _ => hend) (Nat.le_refl n)
    (Nat.le_add_left k 0)

/-! ### Sequences of items -/

/-- The items behind the first one.  The bounds need to cover the tokens only. -/
theorem follows_moreItems {close : Kind} (hclose : close ≠ .newline) {item : Parser α}
    {item' : Parser β} (hitem : c.FollowsLoosely n k F item item') {b b' : Nat} (hb : n ≤ b)
    (hb' : n ≤ b') :
    c.Follows n 1 (List.map F) (moreItems item close b) (moreItems item' close b') := by
  induction n generalizing b b' with
  | zero =>
    intro ts hts
    obtain rfl : ts = [] := List.length_eq_zero_iff.mp (by omega)
    cases b <;> cases b' <;> exact Carries.atEnd rfl rfl rfl
  | succ n ih =>
    obtain ⟨b, rfl⟩ : ∃ d, b = d + 1 := ⟨b - 1, by omega⟩
    obtain ⟨b', rfl⟩ : ∃ d, b' = d + 1 := ⟨b' - 1, by omega⟩
    have hitem' := hitem.mono (Nat.le_succ n) (Nat.zero_le k)
    have hrest : c.Follows n 1 (List.map F) (moreItems item close b) (moreItems item' close b') :=
      ih (hitem.mono (Nat.le_succ n) (Nat.le_refl k)) (by omega) (by omega)
    refine follows_next (follows_nextIs hclose) fun found => ?_
    refine follows_ite ?_ ?_
    · exact follows_first (follows_token close) fun _ => follows_pure []
    · -- The comma is one token less for the items behind it.
      refine follows_bind (j := 0) (follows_token .comma) (fun _ => ?_) (Nat.le_refl _)
        (Nat.le_refl _)
      refine followsIf_bind (j := 0) hitem' (fun a => ?_) (fun _ a => ?_) (Nat.le_refl n)
        (Nat.le_refl 0)
      · exact follows_next hrest fun as => follows_pure (a :: as)
      · exact starves_bind (starves_moreItems item close b) _

/-- Items with commas between them.  The bounds need to cover the tokens only. -/
theorem follows_items {close : Kind} (hclose : close ≠ .newline) {item : Parser α}
    {item' : Parser β} (hitem : c.FollowsLoosely n k F item item') {b b' : Nat} (hb : n ≤ b)
    (hb' : n ≤ b') : c.Follows n 1 (List.map F) (items item close b) (items item' close b') := by
  have hrest := follows_moreItems hclose hitem hb hb'
  refine follows_next (follows_nextIs hclose) fun found => ?_
  refine follows_ite ?_ ?_
  · exact follows_first (follows_token close) fun _ => follows_pure []
  · refine followsIf_bind (j := 1) hitem (fun a => ?_) (fun _ a => ?_) (Nat.le_add_right n k)
      (Nat.le_add_left 1 k)
    · exact follows_first hrest fun as => follows_pure (a :: as)
    · exact starves_bind (starves_moreItems item close b) _

end Change

/-! ### Parsers that answer alike -/

/-- On at most `n` tokens, the parsers give the same answer, and read off at least `k` tokens. -/
def Agree (n k : Nat) (p q : Parser α) : Prop :=
  ∀ ts, ts.length ≤ n →
    p ts = q ts ∧ ∀ a rest, p ts = .ok (a, rest) → rest.length + k ≤ ts.length

section

variable {n m k j : Nat} {p q : Parser α}

theorem Agree.mono (h : Agree n k p q) (hm : m ≤ n) : Agree m k p q :=
  fun ts hts => h ts (by omega)

theorem Agree.trans {r : Parser α} (h : Agree n k p q) (h' : Agree n k q r) : Agree n k p r := by
  intro ts hts
  obtain ⟨hpq, hlen⟩ := h ts hts
  exact ⟨hpq.trans (h' ts hts).1, hlen⟩

theorem Agree.bind {r s : α → Parser β} (h : Agree n k p q) (hr : ∀ a, Agree m j (r a) (s a))
    (hm : n ≤ m + k) : Agree n k (p >>= r) (q >>= s) := by
  intro ts hts
  obtain ⟨hpq, hlen⟩ := h ts hts
  rw [bind_apply, bind_apply, ← hpq]
  rcases hp : p ts with c | ⟨a, rest⟩
  · exact ⟨rfl, fun _ _ hc => nomatch hc⟩
  · have hrest := hlen a rest hp
    obtain ⟨hrs, hlen'⟩ := hr a rest (by omega)
    refine ⟨hrs, fun b rest' hb => ?_⟩
    have := hlen' b rest' hb
    omega

/-- The change that changes nothing. -/
def Change.same : Change := ⟨fun p => p, [], by simp⟩

theorem Change.apply_same (ts : List Token) : Change.same.apply ts = ts := by
  show ts.map (Token.relocate fun p => p) ++ [] = ts
  rw [List.append_nil]
  exact List.map_id ts

/-- What follows a parser under no change agrees with it. -/
theorem agree_iff_follows {F : α → α} (hF : ∀ a, F a = a) :
    Agree n k p q ↔ Change.same.Follows n k F p q := by
  constructor
  · intro h ts hts
    obtain ⟨hpq, hlen⟩ := h ts hts
    rw [Change.apply_same, ← hpq]
    rcases hp : p ts with c | ⟨a, rest⟩
    · have hsame : Change.Carries Change.same False ts.length k F (.error c)
        (.error (c.relocate fun p => p)) := .error
      rwa [Complaint.relocate_same] at hsame
    · have hsame : Change.Carries Change.same False ts.length k F (.ok (a, rest))
        (.ok (F a, Change.same.apply rest)) := .ok (hlen a rest hp)
      rwa [hF, Change.apply_same] at hsame
  · intro h ts hts
    have hcarries := h ts hts
    rw [Change.apply_same] at hcarries
    generalize p ts = x, q ts = y at hcarries
    cases hcarries with
    | @ok a rest hlen =>
      rw [hF, Change.apply_same]
      refine ⟨rfl, fun b rest' hb => ?_⟩
      obtain ⟨-, rfl⟩ := Prod.mk.inj (Except.ok.inj hb)
      exact hlen
    | @error c => exact ⟨congrArg _ c.relocate_same.symm, fun _ _ hc => nomatch hc⟩
    | cut _ hmore => exact absurd rfl hmore
    | used hloose _ _ => exact hloose.elim

end

end Parser

end ListCalc
