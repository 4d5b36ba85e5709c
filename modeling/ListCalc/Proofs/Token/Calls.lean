/-
Scanning ends once.

`Scanner.next` can be called again and again, also after it has failed.  A call that
finds more than a gap takes the character behind the gap, and maybe more, whether or
not they make a token: a number that a second point spoils is taken up to that point,
and the next call starts there.  So one call after the other gets to the end, and
from then on nothing moves.

* `Scanner.after`, `Scanner.answer` — the scanner after some calls, and what a call
  answers;
* `Scanner.EndsAt` — the call that reports the end: those before it answer with a
  token or with a second point, those behind it that the end has passed;
* `Scanner.drain` — calls up to the end with nothing to bound them;
* `calls_end_once` — all of this for a source and its tokens.
-/
import ListCalc.Proofs.Token.Lossless
import Mathlib.Data.List.TakeWhile
import Mathlib.Data.Set.List

namespace ListCalc

namespace Scanner

variable {s : Scanner} {k : Nat} {p : Place}

/-! ### Calls -/

/-- The scanner after some calls, whatever these have answered. -/
def after (s : Scanner) : Nat → Scanner
  | 0 => s
  | n + 1 => s.next.2.after n

/-- What the call behind the first `n` calls answers. -/
def answer (s : Scanner) (n : Nat) : Except ScanError Token := (s.after n).next.1

/-- The tokens up to the end, or the first error.  Nothing says that the calls come to an end: if
they did not, there would be no result (`none`). -/
def drain (s : Scanner) : Option (Except ScanError (List Token)) :=
  match s.next with
  | (.error e, _) => some (.error e)
  | (.ok t, s') =>
    if t.kind = .eof then some (.ok [t])
    else do
      let rest ← s' |>.drain
      return rest.map (t :: ·)
partial_fixpoint

theorem after_succ (s : Scanner) (n : Nat) : s.after (n + 1) = (s.after n).next.2 := by
  induction n generalizing s with
  | zero => rfl
  | succ n ih => exact ih s.next.2

/-! ### One call -/

/-- A call that finds nothing but a gap is at the end. -/
theorem next_of_gap (h : s.rest.dropWhile isGap = []) :
    s.next = (if s.ended then .error ⟨.pastEnd, ⟨.illegal, "", s.place.afterAll s.rest⟩⟩
        else .ok ⟨.eof, "", s.place.afterAll s.rest⟩,
      ⟨s.place.afterAll s.rest, [], true⟩) := by
  have hsplit : s.rest.takeWhile isGap ++ s.rest.dropWhile isGap = s.rest :=
    List.takeWhile_append_dropWhile
  rw [h, List.append_nil] at hsplit
  simp only [next, skipGap, h, hsplit]
  split
  · next hended => rw [hended]
  · rfl

/-- A call that finds more than a gap takes the lexeme behind the gap. -/
theorem next_of_lexeme {c : Char} {cs : List Char} (h : s.rest.dropWhile isGap = c :: cs) :
    s.next = (if (lexeme c cs).wellFormed then
          .ok ⟨(lexeme c cs).kind, (lexeme c cs).text, s.skipGap.place⟩
        else .error ⟨.secondPoint, ⟨(lexeme c cs).kind, (lexeme c cs).text, s.skipGap.place⟩⟩,
      ⟨s.skipGap.place.afterAll (lexeme c cs).taken, (lexeme c cs).rest, s.ended⟩) := by
  simp only [next, skipGap, h]

/-- A call that finds more than a gap takes a character that is no gap. -/
theorem exists_taken (h : ∃ c ∈ s.rest, isGap c = false) :
    ∃ gap c more, (∀ d ∈ gap, isGap d = true) ∧ isGap c = false ∧
      s.rest = gap ++ c :: more ++ s.next.2.rest := by
  have hsplit : s.rest.takeWhile isGap ++ s.rest.dropWhile isGap = s.rest :=
    List.takeWhile_append_dropWhile
  cases hdrop : s.rest.dropWhile isGap with
  | nil =>
    obtain ⟨c, hc, hgap⟩ := h
    exact absurd (List.dropWhile_eq_nil_iff.mp hdrop c hc) (by simp [hgap])
  | cons c cs =>
    have hc := isGap_of_dropWhile_eq_cons hdrop
    obtain ⟨d, more, htaken⟩ := List.exists_cons_of_ne_nil (lexeme_taken_ne_nil c cs)
    have happend := lexeme_taken_append c cs
    rw [htaken, List.cons_append] at happend
    obtain ⟨rfl, -⟩ := List.cons.inj happend
    refine ⟨s.rest.takeWhile isGap, d, more, fun e he => List.mem_takeWhile_imp he, hc, ?_⟩
    rw [next_of_lexeme hdrop, List.append_assoc, List.cons_append, happend, ← hdrop, hsplit]

/-! ### All calls -/

/-- The call behind the first `k` ones reports the end, at the place `p`.  Before that, a call can
only fail at a second point; behind it, all calls fail, and the scanner does not move. -/
structure EndsAt (s : Scanner) (k : Nat) (p : Place) : Prop where
  before : ∀ j < k, (∃ t, s.answer j = .ok t ∧ t.kind ≠ .eof) ∨
    ∃ t, s.answer j = .error ⟨.secondPoint, t⟩
  atEnd : s.answer k = .ok ⟨.eof, "", p⟩
  behind : ∀ j, k < j → (s.after j).place = p ∧
    s.answer j = .error ⟨.pastEnd, ⟨.illegal, "", p⟩⟩

/-- The end is reported once. -/
theorem EndsAt.kind_eq_eof_iff (h : s.EndsAt k p) {j : Nat} {t : Token}
    (ht : s.answer j = .ok t) : t.kind = .eof ↔ j = k := by
  rcases Nat.lt_trichotomy j k with hj | rfl | hj
  · refine iff_of_false ?_ hj.ne
    rcases h.before j hj with ⟨u, hu, hkind⟩ | ⟨u, hu⟩
    · obtain rfl := Except.ok.inj (ht.symm.trans hu)
      exact hkind
    · cases ht.symm.trans hu
  · obtain rfl := Except.ok.inj (ht.symm.trans h.atEnd)
    exact iff_of_true rfl rfl
  · cases ht.symm.trans (h.behind j hj).2

/-- At the end of the source, all calls answer the same. -/
theorem after_of_ended (p : Place) (n : Nat) : after ⟨p, [], true⟩ n = ⟨p, [], true⟩ := by
  induction n with
  | zero => rfl
  | succ n ih => exact ih

/-- The call that finds nothing but a gap reports the end. -/
theorem endsAt_zero (h : s.rest.dropWhile isGap = []) (hended : s.ended = false) :
    s.EndsAt 0 (s.place.afterAll s.rest) := by
  have hnext := next_of_gap h
  rw [hended] at hnext
  refine ⟨fun j hj => absurd hj (Nat.not_lt_zero j), congrArg Prod.fst hnext, fun j hj => ?_⟩
  obtain ⟨j, rfl⟩ : ∃ i, j = i + 1 := ⟨j - 1, by omega⟩
  have hafter : s.after (j + 1) = ⟨s.place.afterAll s.rest, [], true⟩ := by
    rw [after, hnext]
    exact after_of_ended _ j
  rw [answer, hafter]
  exact ⟨rfl, rfl⟩

/-- A call in front of others that come to the end. -/
theorem EndsAt.succ (h : s.next.2.EndsAt k p)
    (hfirst : (∃ t, s.answer 0 = .ok t ∧ t.kind ≠ .eof) ∨
      ∃ t, s.answer 0 = .error ⟨.secondPoint, t⟩) : s.EndsAt (k + 1) p := by
  refine ⟨fun j hj => ?_, h.atEnd, fun j hj => ?_⟩
  · cases j with
    | zero => exact hfirst
    | succ j => exact h.before j (by omega)
  · obtain ⟨j, rfl⟩ : ∃ i, j = i + 1 := ⟨j - 1, by omega⟩
    exact h.behind j (by omega)

/-- **Calls come to the end**, after no more of them than there are characters. -/
theorem exists_endsAt (s : Scanner) (hended : s.ended = false) :
    ∃ k ≤ s.rest.length, s.EndsAt k (s.place.afterAll s.rest) := by
  -- The induction is on the number of characters: a call leaves fewer of them.
  induction hn : s.rest.length using Nat.strongRecOn generalizing s with
  | _ n ih =>
    have hsplit : s.rest.takeWhile isGap ++ s.rest.dropWhile isGap = s.rest :=
      List.takeWhile_append_dropWhile
    cases hdrop : s.rest.dropWhile isGap with
    | nil => exact ⟨0, n.zero_le, endsAt_zero hdrop hended⟩
    | cons c cs =>
      have hnext := next_of_lexeme hdrop
      have hshort : s.next.2.rest.length < n := by
        have hlexeme := lexeme_rest_length c cs
        have hlen := (List.dropWhile_suffix (l := s.rest) isGap).length_le
        rw [hdrop] at hlen
        rw [hnext]
        dsimp only
        omega
      have hplace : s.next.2.place.afterAll s.next.2.rest = s.place.afterAll s.rest := by
        rw [hnext]
        dsimp only [skipGap]
        rw [← afterAll_append, lexeme_taken_append, ← hdrop, ← afterAll_append, hsplit]
      obtain ⟨k, hk, hends⟩ := ih _ hshort s.next.2 (by rw [hnext]; exact hended) rfl
      rw [hplace] at hends
      refine ⟨k + 1, by omega, hends.succ ?_⟩
      show (∃ t, s.next.1 = .ok t ∧ _) ∨ ∃ t, s.next.1 = _
      rw [hnext]
      by_cases hwf : (lexeme c cs).wellFormed = true
      · exact .inl ⟨_, if_pos hwf, lexeme_kind_ne_eof c cs⟩
      · exact .inr ⟨_, if_neg hwf⟩

/-! ### Tokens of calls -/

/-- What the first call answers settles what the calls give, or that it comes first. -/
theorem drain_eq (s : Scanner) : s.drain = match s.answer 0 with
    | .error e => some (.error e)
    | .ok t => if t.kind = .eof then some (.ok [t])
      else s.next.2.drain.map fun rest => rest.map (t :: ·) := by
  rw [answer, after, drain]
  rcases s.next with ⟨e | t, s'⟩
  · rfl
  · refine ite_congr rfl (fun _ => rfl) fun _ => ?_
    cases s'.drain <;> rfl

theorem drain_of_error {e : ScanError} (h : s.answer 0 = .error e) : s.drain = some (.error e) := by
  rw [drain_eq, h]

theorem drain_of_end {t : Token} (h : s.answer 0 = .ok t) (ht : t.kind = .eof) :
    s.drain = some (.ok [t]) := by
  rw [drain_eq, h]
  exact if_pos ht

theorem drain_of_token {t : Token} (h : s.answer 0 = .ok t) (ht : t.kind ≠ .eof) :
    s.drain = s.next.2.drain.map fun rest => rest.map (t :: ·) := by
  rw [drain_eq, h]
  exact if_neg ht

/-- Calls without a bound give the tokens that calls with a bound give. -/
theorem drain_eq_tokens {bound : Nat} (hbound : s.rest.length ≤ bound) (hended : s.ended = false) :
    s.drain = some (s.tokens bound) := by
  induction bound generalizing s with
  | zero =>
    have hnil : s.rest = [] := List.length_eq_zero_iff.mp (by omega)
    have hnext := next_of_gap (s := s) (by rw [hnil]; rfl)
    rw [hended, hnil] at hnext
    exact drain_of_end (congrArg Prod.fst hnext) rfl
  | succ bound ih =>
    rw [drain, tokens]
    cases hdrop : s.rest.dropWhile isGap with
    | nil =>
      rw [next_of_gap hdrop, hended]
      rfl
    | cons c cs =>
      have hlexeme := lexeme_rest_length c cs
      have hlen := (List.dropWhile_suffix (l := s.rest) isGap).length_le
      rw [hdrop] at hlen
      rw [next_of_lexeme hdrop]
      by_cases hwf : (lexeme c cs).wellFormed = true
      · -- The calls that follow have fewer characters left, which is what the bound counts.
        have hrest := ih (s := ⟨s.skipGap.place.afterAll (lexeme c cs).taken, (lexeme c cs).rest,
          s.ended⟩) (by dsimp only; omega) hended
        simp only [if_pos hwf, if_neg (lexeme_kind_ne_eof c cs), hrest]
        cases tokens bound _ <;> rfl
      · simp only [if_neg hwf]

/-- Behind the first call, the end is one call nearer. -/
theorem EndsAt.tail (h : s.EndsAt (k + 1) p) : s.next.2.EndsAt k p := by
  refine ⟨fun j hj => h.before (j + 1) (by omega), h.atEnd, fun j hj => ?_⟩
  exact h.behind (j + 1) (by omega)

/-- If the calls come to the end, they give some tokens exactly if these are their answers up to
the end. -/
theorem EndsAt.drain_eq_ok_iff (h : s.EndsAt k p) (ts : List Token) :
    s.drain = some (.ok ts) ↔ (List.range (k + 1)).map s.answer = ts.map .ok := by
  induction k generalizing s ts with
  | zero =>
    rw [drain_of_end h.atEnd rfl, List.range_one, List.map_singleton, h.atEnd]
    cases ts with
    | nil => simp
    | cons t ts => simp [eq_comm]
  | succ k ih =>
    have hrange : (List.range (k + 1 + 1)).map s.answer
        = s.answer 0 :: (List.range (k + 1)).map s.next.2.answer := by
      rw [List.range_succ_eq_map, List.map_cons, List.map_map]
      rfl
    rw [hrange]
    rcases h.before 0 k.succ_pos with ⟨t, ht, hkind⟩ | ⟨t, ht⟩
    · have hrest : s.drain = some (.ok ts) ↔
          ∃ us, s.next.2.drain = some (.ok us) ∧ t :: us = ts := by
        rw [drain_of_token ht hkind]
        rcases s.next.2.drain with _ | ⟨_ | _⟩ <;> simp [Except.map]
      simp only [hrest, ih h.tail, ht]
      cases ts <;> simp [and_comm]
    · rw [drain_of_error ht, ht]
      cases ts <;> simp

/-- There are tokens exactly if no call before the end fails. -/
theorem EndsAt.exists_drain_iff (h : s.EndsAt k p) :
    (∃ ts, s.drain = some (.ok ts)) ↔ ∀ j < k, ∃ t, s.answer j = .ok t := by
  have hrange := Set.ext_iff.mp (Set.range_list_map (Except.ok : Token → Except ScanError Token))
    ((List.range (k + 1)).map s.answer)
  simp only [h.drain_eq_ok_iff]
  constructor
  · rintro ⟨ts, hts⟩ j hj
    have hmem := List.mem_map_of_mem (f := s.answer) (List.mem_range.mpr (Nat.lt_succ_of_lt hj))
    obtain ⟨t, ht⟩ := hrange.mp ⟨ts, hts.symm⟩ _ hmem
    exact ⟨t, ht.symm⟩
  · intro hall
    obtain ⟨ts, hts⟩ := hrange.mpr fun x hx => by
      obtain ⟨j, hj, rfl⟩ := List.mem_map.mp hx
      rcases Nat.lt_succ_iff_lt_or_eq.mp (List.mem_range.mp hj) with hj | rfl
      · obtain ⟨t, ht⟩ := hall j hj
        exact ⟨t, ht.symm⟩
      · exact ⟨_, h.atEnd.symm⟩
    exact ⟨ts, hts.symm⟩

end Scanner

/-! ### Sources -/

/-- **Calls on a source end once**, after at most as many of them as it has characters.

The call that reports the end comes behind calls that answer with a token or fail at a second
point, and in front of calls that fail since the end has passed, at the same place.  Every call
that finds more than a gap takes a character that is no gap.  So the tokens can be had without a
bound on the calls, and there are any exactly if no call before the end fails; then they are the
answers of the calls. -/
theorem calls_end_once (file source : String) :
    (Scanner.ofText file source).drain = some (tokenize file source) ∧
    let s := Scanner.ofText file source
    (∃ k ≤ source.length, s.EndsAt k (Place.behind file source.toList) ∧
      (∀ j t, s.answer j = .ok t → (t.kind = .eof ↔ j = k)) ∧
      ((∃ ts, tokenize file source = .ok ts) ↔ ∀ j < k, ∃ t, s.answer j = .ok t) ∧
      ∀ ts, tokenize file source = .ok ts ↔ (List.range (k + 1)).map s.answer = ts.map .ok) ∧
    ∀ j, (∃ c ∈ (s.after j).rest, isGap c = false) →
      ∃ gap c more, (∀ d ∈ gap, isGap d = true) ∧ isGap c = false ∧
        (s.after j).rest = gap ++ c :: more ++ (s.after (j + 1)).rest := by
  have hdrain : (Scanner.ofText file source).drain = some (tokenize file source) :=
    Scanner.drain_eq_tokens (Nat.le_refl _) rfl
  refine ⟨hdrain, ?_⟩
  intro s
  obtain ⟨k, hk, hends⟩ := s.exists_endsAt rfl
  rw [show s.place.afterAll s.rest = _ from afterAll_start file source.toList] at hends
  have hsome := hends.exists_drain_iff
  have htokens := hends.drain_eq_ok_iff
  simp only [show s.drain = _ from hdrain, Option.some_inj] at hsome htokens
  refine ⟨⟨k, hk, hends, fun j t ht => hends.kind_eq_eof_iff ht, hsome, htokens⟩,
    fun j hfound => ?_⟩
  rw [Scanner.after_succ]
  exact Scanner.exists_taken hfound

/-- A second point spoils a number, and what stands behind is a token all the same; there is a gap
at the end. -/
theorem calls_end_once_spoiled :
    let s := Scanner.ofText "memo" "1.2.3 "
    s.answer 0 = .error ⟨.secondPoint, ⟨.number, "1.2.", ⟨"memo", 1, 1⟩⟩⟩ ∧
    s.answer 1 = .ok ⟨.number, "0.3", ⟨"memo", 1, 4⟩⟩ ∧
    s.EndsAt 2 ⟨"memo", 1, 7⟩ ∧
    (¬ ∃ ts, tokenize "memo" "1.2.3 " = .ok ts) ∧
    ∃ gap c more, (∀ d ∈ gap, isGap d = true) ∧ isGap c = false ∧
      (s.after 1).rest = gap ++ c :: more ++ (s.after 2).rest := by
  intro s
  obtain ⟨-, ⟨k, -, hends, honce, hsome, -⟩, hprogress⟩ := calls_end_once "memo" "1.2.3 "
  have hfirst : s.answer 0 = .error ⟨.secondPoint, ⟨.number, "1.2.", ⟨"memo", 1, 1⟩⟩⟩ := by
    decide +kernel
  have hsecond : s.answer 1 = .ok ⟨.number, "0.3", ⟨"memo", 1, 4⟩⟩ := by decide +kernel
  have hthird : s.answer 2 = .ok ⟨.eof, "", ⟨"memo", 1, 7⟩⟩ := by decide +kernel
  obtain rfl := (honce 2 _ hthird).mp rfl
  refine ⟨hfirst, hsecond, hends, ?_, hprogress 1 ⟨'.', by decide +kernel, by decide⟩⟩
  rw [hsome]
  intro hall
  obtain ⟨t, ht⟩ := hall 0 (by decide)
  cases hfirst.symm.trans ht

end ListCalc
