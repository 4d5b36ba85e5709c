/-
What more tokens can do.

A parser that is given some tokens reads a value off their front, or refuses one
of them, or stalls: it complains that the tokens ran out.  `Answer` says of each
what becomes of it if more tokens follow:

* what was read is read again, unless the tokens that follow continue it or bring
  an equals sign onto its line;
* what is refused is one of the tokens;
* where a parser stalls, there are tokens that complete what it reads; and a line
  end in that place is either skipped or refused for good.

Parsers come with bounds, so the statements are about families of parsers, one for
each bound.  `Governs` packs up what a sequence of parsers needs to know of each of
its parts; `Governs.bind` puts the parts together.
-/
import ListCalc.Proofs.Spelling.Stmt

namespace ListCalc

open Token

namespace Parser

variable {α β : Type}

/-! ### Tokens that follow -/

/-- No equals sign stands on the first line. -/
def Quiet (us : List Token) : Prop := assignsOnLine us = false

theorem quiet_nil : Quiet [] := rfl

theorem EndsLine.quiet {us : List Token} (h : EndsLine us) : Quiet us := h.assignsOnLine

theorem endsLine_cons {nl : Token} (h : nl.kind = .newline) (us : List Token) :
    EndsLine (nl :: us) := by
  intro t ht
  obtain rfl := Option.some.inj ht
  exact h

/-- A token that is not an equals sign leaves a line quiet. -/
theorem quiet_cons {u : Token} (hu : u.kind ≠ .assign) {us : List Token} (h : Quiet us) :
    Quiet (u :: us) := by
  rw [Quiet, assignsOnLine] at h ⊢
  rw [List.takeWhile_cons]
  split
  · rw [List.any_cons, h, Bool.or_false]
    exact beq_eq_false_iff_ne.mpr hu
  · rfl

theorem quiet_append {us more : List Token} (hus : ∀ u ∈ us, u.kind ≠ .assign)
    (h : Quiet more) : Quiet (us ++ more) := by
  induction us with
  | nil => exact h
  | cons u us ih =>
    rw [List.forall_mem_cons] at hus
    exact quiet_cons hus.1 (ih hus.2)

/-- Quiet tokens behind a line do not change whether it has an equals sign. -/
theorem assignsOnLine_append_quiet (ts : List Token) {us : List Token} (h : Quiet us) :
    assignsOnLine (ts ++ us) = assignsOnLine ts := by
  induction ts with
  | nil => exact h
  | cons t ts ih =>
    rw [List.cons_append, assignsOnLine, assignsOnLine, List.takeWhile_cons, List.takeWhile_cons]
    split
    · rw [List.any_cons, List.any_cons]
      exact congrArg _ ih
    · rfl

/-- The first of some tokens, if there is one, is of a kind with `stop`. -/
def StartsWith (stop : Kind → Prop) (us : List Token) : Prop := ∀ t ∈ us.head?, stop t.kind

section

variable {stop stop' : Kind → Prop} {us : List Token}

theorem startsWith_nil : StartsWith stop [] := by
  intro t ht
  cases ht

theorem startsWith_cons {t : Token} (h : stop t.kind) (us : List Token) :
    StartsWith stop (t :: us) := by
  intro u hu
  obtain rfl := Option.some.inj hu
  exact h

theorem StartsWith.imp (h : StartsWith stop us) (himp : ∀ κ, stop κ → stop' κ) :
    StartsWith stop' us :=
  fun t ht => himp t.kind (h t ht)

end

/-! ### Completions -/

/-- The tokens that completions are made of. -/
def fillers : List Token :=
  [numeral "0.0", word "x", symbol ',', symbol ')', symbol ']', symbol '\x7b', symbol '\x7d',
    word "to", word "as", word "in", word "with", word "step", lineEnd]

theorem kind_ne_of_mem_fillers : ∀ u ∈ fillers, u.kind ≠ .assign ∧ u.kind ≠ .eof := by
  decide +kernel

variable {takes takes' stop stop' : Kind → Prop} {i j k l m n : Nat} {P Q : Nat → Parser α}
  {R : α → Nat → Parser β} {ts v w : List Token}

/-- Behind the tokens `ts`, the tokens `us` complete what is read, at least `k` tokens in all,
whatever comes next that stops it. -/
structure Completes (stop : Kind → Prop) (k : Nat) (P : Nat → Parser α) (ts us : List Token) :
    Prop where
  fill : ∀ u ∈ us, u ∈ fillers
  count : k ≤ (ts ++ us).length
  reads : ∀ more, Quiet more → StartsWith stop more → ∀ d, (ts ++ (us ++ more)).length ≤ d →
    Reads (P d) (ts ++ (us ++ more)) more fun _ => True

theorem Completes.quiet {us more : List Token} (h : Completes stop k P ts us)
    (hmore : Quiet more) : Quiet (us ++ more) :=
  quiet_append (fun u hu => (kind_ne_of_mem_fillers u (h.fill u hu)).1) hmore

/-- A line end behind the tokens is skipped: the same complaint is made again. -/
def SkipsLine (P : Nat → Parser α) (ts : List Token) (e : Complaint) : Prop :=
  ∀ nl : Token, nl.kind = .newline → ∀ d, (ts ++ [nl]).length ≤ d → P d (ts ++ [nl]) = .error e

/-- A line end behind the tokens is refused, whatever follows it. -/
def RefusesLine (P : Nat → Parser α) (ts : List Token) : Prop :=
  ∀ nl : Token, nl.kind = .newline → ∀ more d, (ts ++ nl :: more).length ≤ d →
    ∃ e, P d (ts ++ nl :: more) = .error e ∧ e.kind ≠ .cutShort

/-- What a parser can answer to some tokens, and what follows from it for longer ones.  The tokens
that are read off are of kinds with `takes`, at least `k` of them; a token of a kind with `stop`
does not continue what has been read to the last token. -/
inductive Answer (takes stop : Kind → Prop) (k : Nat) (P : Nat → Parser α) (ts : List Token) :
    Except Complaint (α × List Token) → Prop where
  /-- A value is read, and read again in front of quiet tokens.  If a line end could continue it,
  then by being skipped. -/
  | read {a : α} {rest : List Token} (front : List Token) (split : front ++ rest = ts)
      (taken : ∀ t ∈ front, takes t.kind) (count : k ≤ front.length)
      (again : ∀ us, Quiet us → (rest = [] → StartsWith stop us) → ∀ d, (ts ++ us).length ≤ d →
        P d (ts ++ us) = .ok (a, rest ++ us))
      (skips : ¬ stop .newline → rest = [] → ∀ nl : Token, nl.kind = .newline →
        ∀ d, (ts ++ [nl]).length ≤ d → P d (ts ++ [nl]) = .ok (a, [])) :
      Answer takes stop k P ts (.ok (a, rest))
  /-- One of the tokens is refused. -/
  | refused {e : Complaint} {t : Token} (kind : e.kind ≠ .cutShort) (token : e.token? = some t)
      (mem : t ∈ ts) : Answer takes stop k P ts (.error e)
  /-- The tokens run out. -/
  | stalled {e : Complaint} (us : List Token) (kind : e.kind = .cutShort)
      (token : e.token? = none) (taken : ∀ t ∈ ts, takes t.kind)
      (same : ∀ d, ts.length ≤ d → P d ts = .error e) (completes : Completes stop k P ts us)
      (line : SkipsLine P ts e ∨ RefusesLine P ts) : Answer takes stop k P ts (.error e)

/-! ### From one parser to another -/

/-- A parser that hands its tokens, without some in front, to another one answers as that one. -/
theorem Answer.transfer (front : List Token) {x : Except Complaint (α × List Token)}
    (h : Answer takes stop k P ts x) (hfront : ∀ t ∈ front, takes t.kind)
    (hi : i ≤ front.length + k)
    (hQ : ∀ us, Quiet us → ∀ d, (front ++ ts ++ us).length ≤ d →
      ∃ d', (ts ++ us).length ≤ d' ∧ Q d (front ++ ts ++ us) = P d' (ts ++ us)) :
    Answer takes stop i Q (front ++ ts) x := by
  cases h with
  | @read a rest taken split htakes count again skips =>
    refine .read (front ++ taken) (by rw [List.append_assoc, split])
      (List.forall_mem_append.mpr ⟨hfront, htakes⟩) (by simp; omega) ?_ ?_
    · intro us hus hstop d hd
      obtain ⟨d', hd', hq⟩ := hQ us hus d hd
      rw [hq, again us hus hstop d' hd']
    · intro hline hrest nl hnl d hd
      obtain ⟨d', hd', hq⟩ := hQ [nl] (endsLine_cons hnl []).quiet d hd
      rw [hq, skips hline hrest nl hnl d' hd']
  | refused kind token mem => exact .refused kind token (List.mem_append_right front mem)
  | @stalled e us kind token taken same completes line =>
    refine .stalled us kind token (List.forall_mem_append.mpr ⟨hfront, taken⟩) ?_ ?_ ?_
    · intro d hd
      obtain ⟨d', hd', hq⟩ := hQ [] quiet_nil d (by simpa using hd)
      rw [List.append_nil, List.append_nil] at hq
      rw [hq]
      exact same d' (by simpa using hd')
    · have hcount := completes.count
      refine ⟨completes.fill, by simp at hcount ⊢; omega, fun more hmore hstop d hd => ?_⟩
      obtain ⟨d', hd', hq⟩ := hQ (us ++ more) (completes.quiet hmore) d hd
      obtain ⟨a, ha, -⟩ := completes.reads more hmore hstop d' hd'
      exact ⟨a, hq.trans ha, trivial⟩
    · rcases line with hskip | hrefuse
      · refine .inl fun nl hnl d hd => ?_
        obtain ⟨d', hd', hq⟩ := hQ [nl] (endsLine_cons hnl []).quiet d hd
        rw [hq, hskip nl hnl d' hd']
      · refine .inr fun nl hnl more d hd => ?_
        obtain ⟨d', hd', hq⟩ := hQ (nl :: more) (endsLine_cons hnl more).quiet d hd
        rw [hq]
        exact hrefuse nl hnl more d' hd'

theorem Completes.mono {us : List Token} (h : Completes stop k P ts us) (hl : l ≤ k)
    (hstop : ∀ κ, stop' κ → stop κ) : Completes stop' l P ts us where
  fill := h.fill
  count := Nat.le_trans hl h.count
  reads more hmore hmore' := h.reads more hmore (hmore'.imp hstop)

/-- More may be said to be taken, and less to stop what is read; a line end is an exception, since
it could be skipped. -/
theorem Answer.mono {x : Except Complaint (α × List Token)} (h : Answer takes stop k P ts x)
    (hl : l ≤ k) (htakes : ∀ κ, takes κ → takes' κ) (hstop : ∀ κ, stop' κ → stop κ)
    (hline : stop .newline → stop' .newline) : Answer takes' stop' l P ts x := by
  cases h with
  | read front split taken count again skips =>
    refine .read front split (fun t ht => htakes _ (taken t ht)) (Nat.le_trans hl count) ?_ ?_
    · exact fun us hus hus' => again us hus fun hrest => (hus' hrest).imp hstop
    · exact fun hnot => skips fun h => hnot (hline h)
  | refused kind token mem => exact .refused kind token mem
  | stalled us kind token taken same completes line =>
    exact .stalled us kind token (fun t ht => htakes _ (taken t ht)) same
      (completes.mono hl hstop) line

theorem map_of_ok (f : α → β) {p : Parser α} {a : α} {rest : List Token}
    (h : p ts = .ok (a, rest)) : (f <$> p) ts = .ok (f a, rest) := by
  rw [map_apply, h]

theorem map_of_error (f : α → β) {p : Parser α} {e : Complaint} (h : p ts = .error e) :
    (f <$> p) ts = .error e := by
  rw [map_apply, h]

theorem Completes.map {us : List Token} (h : Completes stop k P ts us) (f : α → β) :
    Completes stop k (fun d => f <$> P d) ts us where
  fill := h.fill
  count := h.count
  reads more hmore hstop d hd :=
    reads_map (h.reads more hmore hstop d hd) fun _ _ => trivial

/-- A value made of what is read. -/
theorem Answer.map {b : Nat} (h : Answer takes stop k P ts (P b ts)) (f : α → β) :
    Answer takes stop k (fun d => f <$> P d) ts ((f <$> P b) ts) := by
  rw [map_apply]
  generalize P b ts = x at h
  cases h with
  | read front split taken count again skips =>
    refine .read front split taken count ?_ ?_
    · exact fun us hus hstop d hd => map_of_ok f (again us hus hstop d hd)
    · exact fun hline hrest nl hnl d hd => map_of_ok f (skips hline hrest nl hnl d hd)
  | refused kind token mem => exact .refused kind token mem
  | stalled us kind token taken same completes line =>
    refine .stalled us kind token taken (fun d hd => map_of_error f (same d hd))
      (completes.map f) ?_
    rcases line with hskip | hrefuse
    · exact .inl fun nl hnl d hd => map_of_error f (hskip nl hnl d hd)
    · refine .inr fun nl hnl more d hd => ?_
      obtain ⟨e, he, hkind⟩ := hrefuse nl hnl more d hd
      exact ⟨e, map_of_error f he, hkind⟩

/-! ### Sequences -/

/-- Where the tokens are used up, the parsers `R` behind a parser that is stopped by `stop` can be
completed by `w`, which stops it; unless `w` is empty, they need a token. -/
structure Resumes (stop stop' : Kind → Prop) (l : Nat) (R : α → Nat → Parser β)
    (w : List Token) : Prop where
  completes : ∀ a, Completes stop' l (R a) [] w
  starts : ∀ more, StartsWith stop' more → StartsWith stop (w ++ more)
  starves : w ≠ [] → ∀ a d, Starves (R a d)

theorem Completes.bind {us : List Token} (hP : Completes stop k P ts us)
    (hR : Resumes stop stop' l R w) (hj : j ≤ k) (hi : i ≤ k + l) :
    Completes stop' i (fun d => P d >>= fun a => R a (d - j)) ts (us ++ w) := by
  obtain ⟨a, -⟩ := hP.reads [] quiet_nil startsWith_nil _ (Nat.le_refl _)
  have hcount := hP.count
  have hcount' := (hR.completes a).count
  refine ⟨List.forall_mem_append.mpr ⟨hP.fill, (hR.completes a).fill⟩, ?_, ?_⟩
  · simp only [List.length_append, List.length_nil] at hcount hcount' ⊢
    omega
  · intro more hmore hstop d hd
    rw [List.append_assoc] at hd ⊢
    refine reads_bind (hP.reads (w ++ more) ((hR.completes a).quiet hmore) (hR.starts more hstop)
      d hd) fun a' _ => ?_
    refine (hR.completes a').reads more hmore hstop (d - j) ?_
    simp only [List.length_append, List.length_nil] at hcount hd ⊢
    omega

theorem bind_of_error {p : Parser α} {r : α → Parser β} {e : Complaint} (h : p ts = .error e) :
    (p >>= r) ts = .error e := by
  rw [bind_apply, h]

/-- A first parser that stalls: the second one is completed from nothing. -/
theorem Answer.bind_stalled {e : Complaint} {us : List Token} (kind : e.kind = .cutShort)
    (token : e.token? = none) (taken : ∀ t ∈ ts, takes t.kind)
    (same : ∀ d, ts.length ≤ d → P d ts = .error e) (completes : Completes stop k P ts us)
    (line : SkipsLine P ts e ∨ RefusesLine P ts) (hR : Resumes stop stop' l R w) (hj : j ≤ k)
    (hi : i ≤ k + l) :
    Answer takes stop' i (fun d => P d >>= fun a => R a (d - j)) ts (.error e) := by
  refine .stalled _ kind token taken ?_ (completes.bind hR hj hi) ?_
  · exact fun d hd => bind_of_error (same d hd)
  · rcases line with hskip | hrefuse
    · exact .inl fun nl hnl d hd => bind_of_error (hskip nl hnl d hd)
    · refine .inr fun nl hnl more d hd => ?_
      obtain ⟨e', he', hkind⟩ := hrefuse nl hnl more d hd
      exact ⟨e', bind_of_error he', hkind⟩

/-- A first parser that uses up the tokens.  A line end is skipped by it, or else it is for the
second parser to deal with. -/
theorem Answer.bind_used {a : α} {b : Nat} (taken : ∀ t ∈ ts, takes t.kind)
    (count : k ≤ ts.length)
    (again : ∀ us, Quiet us → StartsWith stop us → ∀ d, (ts ++ us).length ≤ d →
      P d (ts ++ us) = .ok (a, us))
    (skips : ¬ stop .newline → ∀ nl : Token, nl.kind = .newline →
      ∀ d, (ts ++ [nl]).length ≤ d → P d (ts ++ [nl]) = .ok (a, []))
    (hsecond : Answer takes stop' l (R a) [] (R a b [])) (hR : Resumes stop stop' l R w)
    (hj : j ≤ k) (hi : i ≤ k + l) :
    Answer takes stop' i (fun d => P d >>= fun a => R a (d - j)) ts (R a b []) := by
  have hnext : ∀ us, Quiet us → StartsWith stop us → ∀ d, (ts ++ us).length ≤ d →
      us.length ≤ d - j ∧ (P d >>= fun a => R a (d - j)) (ts ++ us) = R a (d - j) us := by
    intro us hus hstop d hd
    refine ⟨?_, bind_of_ok (again us hus hstop d hd)⟩
    rw [List.length_append] at hd
    omega
  have hsame : ∀ d, ts.length ≤ d → (P d >>= fun a => R a (d - j)) ts = R a (d - j) [] := by
    intro d hd
    have h := (hnext [] quiet_nil startsWith_nil d (by simpa using hd)).2
    rwa [List.append_nil] at h
  generalize hy : R a b [] = y at hsecond
  cases hsecond with
  | refused kind token mem => exact absurd mem (by simp)
  | @read c rest front split taken' count' again' skips' =>
    obtain ⟨rfl, rfl⟩ := List.append_eq_nil_iff.mp split
    -- The second parser reads nothing, so it does not need a token.
    obtain rfl : w = [] := by
      refine Classical.byContradiction fun hne => ?_
      obtain ⟨e, he, -⟩ := hR.starves hne a b
      rw [he] at hy
      cases hy
    refine .read ts (List.append_nil ts) taken (by simp at count'; omega) ?_ ?_
    · intro us hus hstop d hd
      obtain ⟨hd', heq⟩ := hnext us hus (hR.starts us (hstop rfl)) d hd
      exact heq.trans (again' us hus hstop (d - j) hd')
    · intro hline _ nl hnl d hd
      by_cases htight : stop .newline
      · obtain ⟨hd', heq⟩ := hnext [nl] (endsLine_cons hnl []).quiet
          (startsWith_cons (by rwa [hnl]) []) d hd
        exact heq.trans (skips' hline rfl nl hnl (d - j) hd')
      · refine (bind_of_ok (skips htight nl hnl d hd)).trans ?_
        exact again' [] quiet_nil (fun _ => startsWith_nil) (d - j) (Nat.zero_le _)
  | @stalled e us kind token taken' same completes line =>
    refine .stalled w kind token taken ?_ ?_ ?_
    · exact fun d hd => (hsame d hd).trans (same (d - j) (Nat.zero_le _))
    · have hcount := (hR.completes a).count
      refine ⟨(hR.completes a).fill, by simp at hcount ⊢; omega, fun more hmore hstop d hd => ?_⟩
      obtain ⟨hd', heq⟩ := hnext (w ++ more) ((hR.completes a).quiet hmore)
        (hR.starts more hstop) d hd
      obtain ⟨c, hc, -⟩ := (hR.completes a).reads more hmore hstop (d - j) hd'
      exact ⟨c, heq.trans hc, trivial⟩
    · by_cases htight : stop .newline
      · rcases line with hskip | hrefuse
        · refine .inl fun nl hnl d hd => ?_
          obtain ⟨hd', heq⟩ := hnext [nl] (endsLine_cons hnl []).quiet
            (startsWith_cons (by rwa [hnl]) []) d hd
          exact heq.trans (hskip nl hnl (d - j) hd')
        · refine .inr fun nl hnl more d hd => ?_
          obtain ⟨hd', heq⟩ := hnext (nl :: more) (endsLine_cons hnl more).quiet
            (startsWith_cons (by rwa [hnl]) more) d hd
          obtain ⟨e', he', hkind⟩ := hrefuse nl hnl more (d - j) hd'
          exact ⟨e', heq.trans he', hkind⟩
      · refine .inl fun nl hnl d hd => ?_
        exact (bind_of_ok (skips htight nl hnl d hd)).trans (same (d - j) (Nat.zero_le _))

/-- One parser behind another.  The bound of the second may be less by the tokens of the first.
The second can be completed where the tokens are used up, or else there is a token that the first
does not take, and so they never are. -/
theorem Answer.bind {b : Nat} (hb : ts.length ≤ b) (hP : Answer takes stop k P ts (P b ts))
    (hR : ∀ a front rest, front ++ rest = ts → (∀ t ∈ front, takes t.kind) → k ≤ front.length →
      Answer takes' stop' l (R a) rest (R a (b - j) rest))
    (hend : (∃ w, Resumes stop stop' l R w) ∨ ∃ t ∈ ts, ¬ takes t.kind)
    (htakes : ∀ κ, takes κ → takes' κ) (hj : j ≤ k) (hi : i ≤ k + l) :
    Answer takes' stop' i (fun d => P d >>= fun a => R a (d - j)) ts
      ((P b >>= fun a => R a (b - j)) ts) := by
  have hresumes : (∀ t ∈ ts, takes t.kind) → ∃ w, Resumes stop stop' l R w := by
    intro htaken
    rcases hend with hw | ⟨t, ht, hnot⟩
    · exact hw
    · exact absurd (htaken t ht) hnot
  rw [bind_apply]
  generalize P b ts = x at hP
  cases hP with
  | refused kind token mem => exact .refused kind token mem
  | stalled us kind token taken same completes line =>
    obtain ⟨w, hw⟩ := hresumes taken
    exact .bind_stalled kind token (fun t ht => htakes _ (taken t ht)) same completes line hw hj hi
  | @read a rest front split taken count again skips =>
    have hsecond := hR a front rest split taken count
    have htaken : ∀ t ∈ front, takes' t.kind := fun t ht => htakes _ (taken t ht)
    by_cases hrest : rest = []
    · subst hrest
      rw [List.append_nil] at split
      subst split
      obtain ⟨w, hw⟩ := hresumes taken
      exact .bind_used htaken count (fun us hus hstop => again us hus fun _ => hstop)
        (fun hline => skips hline rfl) hsecond hw hj hi
    · -- Tokens are left, so the first parser reads the same whatever follows.
      subst split
      refine hsecond.transfer front htaken (by omega) fun us hus d hd => ?_
      refine ⟨d - j, ?_, bind_of_ok (again us hus (fun h => absurd h hrest) d hd)⟩
      simp only [List.length_append] at hd ⊢
      omega

/-- How a parser fares on at most `n` tokens, and that from nothing `v` completes it; unless `v` is
empty, it needs a token. -/
structure Governs (takes stop : Kind → Prop) (k n : Nat) (v : List Token)
    (P : Nat → Parser α) : Prop where
  answers : ∀ ts, ts.length ≤ n → ∀ b, ts.length ≤ b → Answer takes stop k P ts (P b ts)
  completes : Completes stop k P [] v
  starves : v ≠ [] → ∀ d, Starves (P d)

namespace Governs

/-- Bounds that are larger do as well. -/
theorem reindex (h : Governs takes stop k n v P) {f : Nat → Nat} (hf : ∀ d, d ≤ f d) :
    Governs takes stop k n v (fun d => P (f d)) where
  answers ts hts b hb := by
    have hfb := hf b
    refine (h.answers ts hts (f b) (by omega)).transfer [] (by simp) (by simp) ?_
    intro us _ d hd
    have hfd := hf d
    exact ⟨f d, by simp at hd ⊢; omega, rfl⟩
  completes := by
    refine ⟨h.completes.fill, h.completes.count, fun more hmore hstop d hd => ?_⟩
    have hfd := hf d
    exact h.completes.reads more hmore hstop (f d) (by omega)
  starves hv d := h.starves hv (f d)

/-- Parsers that agree where the bound covers the tokens fare alike. -/
theorem congr (h : Governs takes stop k n v P)
    (hQ : ∀ d ts, ts.length ≤ d → Q d ts = P d ts) : Governs takes stop k n v Q where
  answers ts hts b hb := by
    rw [hQ b ts hb]
    refine (h.answers ts hts b hb).transfer [] (by simp) (by simp) ?_
    exact fun us _ d hd => ⟨d, by simpa using hd, hQ d _ (by simpa using hd)⟩
  completes := by
    refine ⟨h.completes.fill, h.completes.count, fun more hmore hstop d hd => ?_⟩
    obtain ⟨a, ha, -⟩ := h.completes.reads more hmore hstop d hd
    exact ⟨a, (hQ d _ hd).trans ha, trivial⟩
  starves hv d := by
    obtain ⟨e, he, hkind⟩ := h.starves hv d
    exact ⟨e, (hQ d [] (Nat.zero_le d)).trans he, hkind⟩

theorem mono (h : Governs takes stop k n v P) (hm : m ≤ n) (hl : l ≤ k)
    (htakes : ∀ κ, takes κ → takes' κ) (hstop : ∀ κ, stop' κ → stop κ)
    (hline : stop .newline → stop' .newline) : Governs takes' stop' l m v P where
  answers ts hts b hb := (h.answers ts (by omega) b hb).mono hl htakes hstop hline
  completes := h.completes.mono hl hstop
  starves := h.starves

/-- Fewer tokens may be there. -/
theorem of_le (h : Governs takes stop k n v P) (hm : m ≤ n) : Governs takes stop k m v P :=
  h.mono hm (Nat.le_refl k) (fun _ h => h) (fun _ h => h) fun h => h

theorem resumes (h : ∀ a, Governs takes' stop' l m w (R a))
    (hstart : ∀ more, StartsWith stop' more → StartsWith stop (w ++ more)) :
    Resumes stop stop' l R w :=
  ⟨fun a => (h a).completes, hstart, fun hw a => (h a).starves hw⟩

/-- Behind one answer, any parser of a family. -/
theorem bind_answer {b : Nat} (hb : ts.length ≤ b) (hP : Answer takes stop k P ts (P b ts))
    (hR : ∀ a, Governs takes stop' l m w (R a))
    (hstart : ∀ more, StartsWith stop' more → StartsWith stop (w ++ more))
    (hm : ts.length ≤ m + k) (hj : j ≤ k) (hi : i ≤ k + l) :
    Answer takes stop' i (fun d => P d >>= fun a => R a (d - j)) ts
      ((P b >>= fun a => R a (b - j)) ts) := by
  refine hP.bind hb (fun a front rest split _ count => ?_) (.inl ⟨w, resumes hR hstart⟩)
    (fun _ h => h) hj hi
  have hlen : front.length + rest.length = ts.length := by rw [← split, List.length_append]
  exact (hR a).answers rest (by omega) (b - j) (by omega)

/-- One parser behind another, with a bound that may be less by `j`. -/
theorem bind_less (hP : Governs takes stop k n v P) (hR : ∀ a, Governs takes stop' l m w (R a))
    (hstart : ∀ more, StartsWith stop' more → StartsWith stop (w ++ more)) (hm : n ≤ m + k)
    (hj : j ≤ k) (hi : i ≤ k + l) :
    Governs takes stop' i n (v ++ w) (fun d => P d >>= fun a => R a (d - j)) where
  answers ts hts b hb :=
    bind_answer hb (hP.answers ts hts b hb) hR hstart (Nat.le_trans hts hm) hj hi
  completes := hP.completes.bind (resumes hR hstart) hj hi
  starves hvw d := by
    by_cases hv : v = []
    · -- The first parser reads nothing, and the second needs a token.
      obtain ⟨a, ha, -⟩ := hP.completes.reads [] quiet_nil startsWith_nil d (by simp [hv])
      obtain ⟨e, he, hkind⟩ := (hR a).starves (by simpa [hv] using hvw) (d - j)
      rw [hv] at ha
      exact ⟨e, (bind_of_ok ha).trans he, hkind⟩
    · exact starves_bind (hP.starves hv d) _

/-- One parser behind another. -/
theorem bind (hP : Governs takes stop k n v P) (hR : ∀ a, Governs takes stop' l m w (R a))
    (hstart : ∀ more, StartsWith stop' more → StartsWith stop (w ++ more)) (hm : n ≤ m + k)
    (hi : i ≤ k + l) : Governs takes stop' i n (v ++ w) (fun d => P d >>= fun a => R a d) :=
  bind_less hP hR hstart hm (Nat.zero_le k) hi

/-- One parser behind another that reads a token. -/
theorem next (hP : Governs takes stop 1 n v P) (hR : ∀ a, Governs takes stop' l n w (R a))
    (hstart : ∀ more, StartsWith stop' more → StartsWith stop (w ++ more)) :
    Governs takes stop' 1 n (v ++ w) (fun d => P d >>= fun a => R a d) :=
  hP.bind hR hstart (Nat.le_add_right n 1) (Nat.le_add_right 1 l)

/-- One parser behind another that may read nothing. -/
theorem skip (hP : Governs takes stop 0 n v P) (hR : ∀ a, Governs takes stop' l n w (R a))
    (hstart : ∀ more, StartsWith stop' more → StartsWith stop (w ++ more)) :
    Governs takes stop' l n (v ++ w) (fun d => P d >>= fun a => R a d) :=
  hP.bind hR hstart (Nat.le_refl n) (Nat.le_add_left l 0)

theorem map (h : Governs takes stop k n v P) (f : α → β) :
    Governs takes stop k n v (fun d => f <$> P d) where
  answers ts hts b hb := (h.answers ts hts b hb).map f
  completes := h.completes.map f
  starves hv d := by
    obtain ⟨e, he, hkind⟩ := h.starves hv d
    exact ⟨e, map_of_error f he, hkind⟩

theorem bind_pure (h : Governs takes stop k n v P) (f : α → β) :
    Governs takes stop k n v (fun d => P d >>= fun a => pure (f a)) := by
  simp only [bind_pure_comp]
  exact h.map f

end Governs

/-! ### Single tokens -/

/-- Any kind of token. -/
def anyKind : Kind → Prop := fun _ => True

/-- What nothing continues is stopped by less. -/
theorem Governs.stopped (h : Governs takes anyKind k n v P) (hline : stop .newline) :
    Governs takes stop k n v P :=
  h.mono (Nat.le_refl n) (Nat.le_refl k) (fun _ h => h) (fun _ _ => trivial) fun _ => hline

/-- A token is read if it is of the kind `κ`, and refused otherwise. -/
theorem answer_of_single {p : Parser Token} {κ : Kind} (htakes : takes κ) (what : String)
    {refusal : ParseError.Kind} (hrefusal : refusal ≠ .cutShort)
    (hcons : ∀ t ts, p (t :: ts)
      = if t.kind = κ then .ok (t, ts) else .error ⟨refusal, some t, what⟩)
    (t : Token) (ts : List Token) :
    Answer takes anyKind 1 (fun _ => p) (t :: ts) (p (t :: ts)) := by
  rw [hcons]
  by_cases ht : t.kind = κ
  · rw [if_pos ht]
    refine .read [t] rfl (by simpa [ht] using htakes) (Nat.le_refl 1) ?_ ?_
    · exact fun us _ _ _ _ => (hcons t (ts ++ us)).trans (if_pos ht)
    · exact fun hline => absurd trivial hline
  · rw [if_neg ht]
    exact .refused hrefusal rfl List.mem_cons_self

/-- Without a token to read, one of the kind `κ` is needed, and a line end is none. -/
theorem governs_of_single {p : Parser Token} {κ : Kind} (hκ : κ ≠ .newline) (htakes : takes κ)
    {c : Token} (hc : c.kind = κ) (hfill : c ∈ fillers) (what : String) {refusal : ParseError.Kind}
    (hrefusal : refusal ≠ .cutShort) (hnil : p [] = .error ⟨.cutShort, none, what⟩)
    (hcons : ∀ t ts, p (t :: ts)
      = if t.kind = κ then .ok (t, ts) else .error ⟨refusal, some t, what⟩) :
    Governs takes anyKind 1 n [c] (fun _ => p) := by
  have hcompletes : Completes anyKind 1 (fun _ => p) [] [c] := by
    refine ⟨by simpa using hfill, Nat.le_refl 1, fun more _ _ _ _ => ⟨c, ?_, trivial⟩⟩
    exact (hcons c more).trans (if_pos hc)
  refine ⟨fun ts _ b _ => ?_, hcompletes, fun _ _ => ⟨_, hnil, rfl⟩⟩
  cases ts with
  | nil =>
    rw [hnil]
    refine .stalled _ rfl rfl (by simp) (fun _ _ => hnil) hcompletes (.inr ?_)
    intro nl hnl more d _
    exact ⟨_, (hcons nl more).trans (if_neg (by rw [hnl]; exact hκ.symm)), hrefusal⟩
  | cons t ts => exact answer_of_single htakes what hrefusal hcons t ts

theorem governs_token {κ : Kind} (hκ : κ ≠ .newline) (htakes : takes κ) {c : Token}
    (hc : c.kind = κ) (hfill : c ∈ fillers) :
    Governs takes anyKind 1 n [c] (fun _ => token κ) :=
  governs_of_single hκ htakes hc hfill _ (by decide) rfl fun _ _ => rfl

theorem governs_ident (what : String) (htakes : takes .ident) :
    Governs takes anyKind 1 n [word "x"] (fun _ => ident what) :=
  governs_of_single (by decide) htakes (by decide +kernel) (by simp [fillers]) _ (by decide) rfl
    fun _ _ => rfl

/-- Any kind of token but a line end. -/
def notNewline : Kind → Prop := fun κ => κ ≠ .newline

instance : DecidablePred notNewline := fun κ => inferInstanceAs (Decidable (κ ≠ .newline))

theorem governs_newlines (htakes : takes .newline) :
    Governs takes notNewline 0 n [] (fun _ => newlines) where
  answers ts _ b _ := by
    have hsplit : ts.takeWhile (·.kind == .newline) ++ ts.dropWhile (·.kind == .newline) = ts :=
      List.takeWhile_append_dropWhile
    refine .read _ hsplit ?_ (Nat.zero_le _) ?_ ?_
    · intro t ht
      have hline : t.kind = .newline := by
        simpa using List.all_eq_true.mp List.all_takeWhile t ht
      rw [hline]
      exact htakes
    · intro us _ hstop d _
      rw [newlines, List.dropWhile_append]
      split
      · next hempty =>
        rw [List.isEmpty_iff] at hempty
        obtain ⟨u, hu, -⟩ := reads_newlines (hstop hempty)
        rw [hempty]
        exact hu
      · rfl
    · intro _ hempty nl hnl d _
      rw [newlines, List.dropWhile_append, hempty]
      simp [hnl]
  completes := by
    refine ⟨by simp, Nat.zero_le _, fun more _ hstop d _ => ?_⟩
    exact reads_newlines hstop
  starves hv := absurd rfl hv

/-! ### Sequences of items -/

section

variable {close : Kind} {c : Token} {I : Nat → Parser α}

/-- Given no tokens, the parser complains `e` that they ran out, and a line end is skipped or
refused. -/
structure Stalls (B : Nat → Parser α) (e : Complaint) : Prop where
  kind : e.kind = .cutShort
  token : e.token? = none
  same : ∀ d, B d [] = .error e
  line : SkipsLine B [] e ∨ RefusesLine B []

theorem Governs.stalls (h : Governs takes stop k n v P) (hv : v ≠ []) : ∃ e, Stalls P e := by
  obtain ⟨e, he, -⟩ := h.starves hv 0
  have hanswer := h.answers [] (Nat.zero_le n) 0 (Nat.le_refl 0)
  rw [he] at hanswer
  cases hanswer with
  | refused _ _ mem => exact absurd mem (by simp)
  | stalled _ kind token _ same _ line =>
    exact ⟨e, kind, token, fun d => same d (Nat.zero_le d), line⟩

/-- A parser that ends with a token of kind `close`, or else goes on as one that needs a token. -/
theorem governs_closing {B : Nat → Parser α} (x : α) (hclose : close ≠ .newline)
    (htakes : takes close) (hc : c.kind = close) (hfill : c ∈ fillers) {e : Complaint}
    (hend : Stalls B e) (hB : ∀ ts, ts ≠ [] → ts.length ≤ n → ∀ b, ts.length ≤ b →
      Answer takes anyKind 1 B ts (B b ts)) :
    Governs takes anyKind 1 n [c] (fun d => do
      if ← nextIs close then
        let _ ← token close
        return x
      else B d) := by
  generalize hP : (fun d => do
      if ← nextIs close then
        let _ ← token close
        return x
      else B d) = P
  have hyes : ∀ d (t : Token) ts, t.kind = close → Reads (P d) (t :: ts) ts (· = x) := by
    intro d t ts ht
    rw [← hP]
    refine reads_bind (reads_nextIs close t ts) fun found hfound => ?_
    refine reads_then (hfound.trans (beq_iff_eq.mpr ht)) ?_
    exact reads_bind (reads_token ht ts) fun _ _ => reads_pure rfl
  have hno : ∀ d ts, StartsWith (· ≠ close) ts → P d ts = B d ts := by
    intro d ts hts
    have hany : ts.head?.any (·.kind == close) = false := by
      cases ts with
      | nil => rfl
      | cons t ts => exact beq_eq_false_iff_ne.mpr (hts t rfl)
    rw [← hP]
    simp [nextIs, bind_apply, hany]
  have hnil : ∀ d, P d [] = .error e := fun d => (hno d [] startsWith_nil).trans (hend.same d)
  have hcompletes : Completes anyKind 1 P [] [c] := by
    refine ⟨by simpa using hfill, Nat.le_refl 1, fun more _ _ d _ => ?_⟩
    obtain ⟨a, ha, -⟩ := hyes d c more hc
    exact ⟨a, ha, trivial⟩
  refine ⟨fun ts hts b hb => ?_, hcompletes, fun _ d => ⟨e, hnil d, hend.kind⟩⟩
  cases ts with
  | nil =>
    -- A line end does not close the sequence, so it is dealt with as before.
    have hline : ∀ d (nl : Token) more, nl.kind = .newline →
        P d (nl :: more) = B d (nl :: more) := by
      intro d nl more hnl
      exact hno d _ (startsWith_cons (by rw [hnl]; exact hclose.symm) more)
    rw [hnil]
    refine .stalled _ hend.kind hend.token (by simp) (fun d _ => hnil d) hcompletes ?_
    rcases hend.line with hskip | hrefuse
    · exact .inl fun nl hnl d hd => (hline d nl [] hnl).trans (hskip nl hnl d hd)
    · refine .inr fun nl hnl more d hd => ?_
      obtain ⟨e', he', hkind⟩ := hrefuse nl hnl more d hd
      exact ⟨e', (hline d nl more hnl).trans he', hkind⟩
  | cons t ts =>
    by_cases ht : t.kind = close
    · have hread : ∀ us d, P d (t :: us) = .ok (x, us) := by
        intro us d
        obtain ⟨a, ha, rfl⟩ := hyes d t us ht
        exact ha
      rw [hread]
      refine .read [t] rfl (by simpa [ht] using htakes) (Nat.le_refl 1) ?_ ?_
      · exact fun us _ _ d _ => hread (ts ++ us) d
      · exact fun hline => absurd trivial hline
    · rw [hno b _ (startsWith_cons ht ts)]
      refine (hB (t :: ts) (List.cons_ne_nil t ts) hts b hb).transfer [] (by simp)
        (by simp) ?_
      exact fun us _ d hd => ⟨d, hd, hno d _ (startsWith_cons ht (ts ++ us))⟩

/-- A comma and an item, and then the items behind.  The bound of the sequence counts down, and
those of the items are no less. -/
theorem governs_moreItems_of_rest (hclose : close ≠ .newline) (htakes : takes close)
    (hc : c.kind = close) (hfill : c ∈ fillers) (f : Nat → Nat)
    (hrest : ∀ ts, ts ≠ [] → ts.length ≤ n → ∀ b, ts.length ≤ b →
      Answer takes anyKind 1 (fun d => do
        let _ ← token .comma
        let a ← I (f (d - 1 + 1))
        let as ← moreItems (I (f (d - 1 + 1))) close (d - 1)
        return a :: as) ts ((do
        let _ ← token .comma
        let a ← I (f (b - 1 + 1))
        let as ← moreItems (I (f (b - 1 + 1))) close (b - 1)
        return a :: as) ts)) :
    Governs takes anyKind 1 n [c] (fun d => moreItems (I (f d)) close d) := by
  refine Governs.congr (governs_closing [] hclose htakes hc hfill
    (e := ⟨.cutShort, none, Text.quote Kind.comma.text⟩) ⟨rfl, rfl, fun _ => rfl, .inr ?_⟩ hrest)
    fun d ts hts => ?_
  · intro nl hnl more d _
    refine ⟨⟨.expectedInstead, some nl, Text.quote Kind.comma.text⟩, bind_of_error ?_, ?_⟩
    · exact if_neg (by rw [hnl]; decide)
    · exact fun h => by cases h
  · cases d with
    | zero =>
      obtain rfl : ts = [] := List.length_eq_zero_iff.mp (by omega)
      rfl
    | succ d => rfl

/-- The items behind the first one. -/
theorem governs_moreItems (hclose : close ≠ .newline) (htakes : takes close)
    (hcomma : takes .comma) (hc : c.kind = close) (hfill : c ∈ fillers) (hstop : stop close)
    (hitem : Governs takes stop 1 n v I) {f : Nat → Nat} (hf : ∀ d, d ≤ f d) :
    Governs takes anyKind 1 n [c] (fun d => moreItems (I (f d)) close d) := by
  induction n generalizing f with
  | zero =>
    refine governs_moreItems_of_rest hclose htakes hc hfill f fun ts hne hts => ?_
    exact absurd (List.length_eq_zero_iff.mp (by omega)) hne
  | succ n ih =>
    have hf' : ∀ d, d ≤ f (d + 1) := fun d => Nat.le_of_succ_le (hf (d + 1))
    have hitem' := hitem.of_le (Nat.le_succ n)
    have hnext : Governs takes anyKind 1 n (v ++ [c]) (fun d => do
        let a ← I (f (d + 1))
        let as ← moreItems (I (f (d + 1))) close d
        return a :: as) :=
      (hitem'.reindex hf').next (fun a => (ih hitem' hf').bind_pure (a :: ·))
        fun more _ => startsWith_cons (by rwa [hc]) more
    refine governs_moreItems_of_rest hclose htakes hc hfill f fun ts hne hts b hb => ?_
    have hcommas := (governs_token (n := n + 1) (c := symbol ',') (by decide) hcomma rfl
      (by decide +kernel)).bind_less (j := 1) (i := 1) (fun _ => hnext) (fun _ _ _ _ => trivial)
      (Nat.le_refl _) (Nat.le_refl 1) (Nat.le_add_right 1 1)
    exact hcommas.answers ts hts b hb

/-- Items with commas between them. -/
theorem governs_items (hclose : close ≠ .newline) (htakes : takes close)
    (hcomma : takes .comma) (hc : c.kind = close) (hfill : c ∈ fillers) (hstop : stop close)
    (hitem : Governs takes stop 1 n v I) :
    Governs takes anyKind 1 n [c] (fun d => items (I d) close d) := by
  have hall : Governs takes anyKind 1 n (v ++ [c]) (fun d => do
      let a ← I d
      let as ← moreItems (I d) close d
      return a :: as) :=
    hitem.next (fun a => (governs_moreItems hclose htakes hcomma hc hfill hstop hitem
      Nat.le_refl).bind_pure (a :: ·)) fun more _ => startsWith_cons (by rwa [hc]) more
  obtain ⟨e, he⟩ := hall.stalls (by simp)
  exact governs_closing [] hclose htakes hc hfill he fun ts _ hts => hall.answers ts hts

end

end Parser

end ListCalc
