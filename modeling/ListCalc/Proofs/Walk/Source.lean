/-
Walks on any list of tokens.

A list of tokens may hold no mark of the end, or several, or one that is not at its
end; the cursor walks on the list with a mark behind it, `withEnd`.  From every
place in that list it sees a first mark of the end, so that every statement comes to
an outcome with the cursor in range, and a statement that is read moves the cursor
(`exists_statement_withEnd`).  A whole program comes to the outcome of
`parseTokens`, and neither what stands behind the first mark nor whether there is
anything at all makes a difference to it.
-/
import ListCalc.Proofs.Completion.Stmt
import ListCalc.Proofs.Source
import ListCalc.Proofs.Walk.Stmt

namespace ListCalc

/-! ### The end of the source -/

theorem kind_endToken (ts : List Token) : (endToken ts).kind = .eof := by
  rw [endToken]
  split
  · next t ht => simpa using List.find?_some ht
  · split <;> rfl

theorem exists_withEnd_eq_append (ts : List Token) : ∃ more, withEnd ts = ts ++ more := by
  rw [withEnd]
  split
  · next h => exact ⟨_, by rw [List.getLast?_eq_none_iff.mp h]; rfl⟩
  · split
    · exact ⟨[], (List.append_nil ts).symm⟩
    · exact ⟨_, rfl⟩

theorem kind_ne_of_mem_tokensBeforeEnd (ts : List Token) :
    ∀ t ∈ tokensBeforeEnd ts, t.kind ≠ .eof := by
  intro t ht
  simpa using List.mem_takeWhile_imp ht

/-- Tokens without a mark of the end get one. -/
theorem withEnd_of_kind_ne {ts : List Token} (h : ∀ t ∈ ts, t.kind ≠ .eof) :
    withEnd ts = ts ++ [endToken ts] := by
  rw [withEnd, endToken, find?_eof_eq_none h]
  cases hlast : ts.getLast? with
  | none => rw [List.getLast?_eq_none_iff.mp hlast]; rfl
  | some t => exact if_neg (h t (List.mem_of_getLast? hlast))

theorem exists_getLast?_withEnd (ts : List Token) :
    ∃ eof, (withEnd ts).getLast? = some eof ∧ eof.kind = .eof := by
  rw [withEnd]
  cases hlast : ts.getLast? with
  | none => exact ⟨_, rfl, rfl⟩
  | some t =>
    dsimp only
    split
    · next ht => exact ⟨t, hlast, ht⟩
    · exact ⟨_, List.getLast?_concat, rfl⟩

/-- The first mark of the end is the one that counts. -/
theorem exists_withEnd_split (ts : List Token) :
    ∃ more, withEnd ts = tokensBeforeEnd ts ++ endToken ts :: more := by
  cases hfind : ts.find? (·.kind == .eof) with
  | none =>
    have hts : ∀ t ∈ ts, t.kind ≠ .eof := by simpa using List.find?_eq_none.mp hfind
    exact ⟨[], by rw [withEnd_of_kind_ne hts, tokensBeforeEnd_of_kind_ne hts]⟩
  | some eof =>
    obtain ⟨heof, front, behind, rfl, hfront⟩ := List.find?_eq_some_iff_append.mp hfind
    have heof : eof.kind = .eof := by simpa using heof
    have hfront : ∀ t ∈ front, t.kind ≠ .eof := by simpa using hfront
    obtain ⟨more, hmore⟩ := exists_withEnd_eq_append (front ++ eof :: behind)
    refine ⟨behind ++ more, ?_⟩
    rw [hmore, tokensBeforeEnd_append hfront eof heof, endToken_append hfront eof heof,
      List.append_assoc, List.cons_append]

theorem find?_withEnd (ts : List Token) :
    (withEnd ts).find? (·.kind == .eof) = some (endToken ts) := by
  obtain ⟨more, hmore⟩ := exists_withEnd_split ts
  rw [hmore, List.find?_append, find?_eof_eq_none (kind_ne_of_mem_tokensBeforeEnd ts)]
  simp [kind_endToken]

namespace Walk

/-! ### Statements -/

/-- From every place in a list there is a mark of the end to be seen. -/
theorem exists_sees_withEnd {ts : List Token} {pos : Nat} (h : pos < (withEnd ts).length) :
    ∃ (s : Stretch) (inside : List Token), s.tokens = withEnd ts ∧ s.Sees pos inside := by
  obtain ⟨last, hlast, hkind⟩ := exists_getLast?_withEnd ts
  have hmem : last ∈ (withEnd ts).drop pos := by
    apply List.mem_of_getLast?
    rw [List.getLast?_drop, if_neg (by omega), hlast]
  obtain ⟨eof, hfind⟩ : ∃ eof, ((withEnd ts).drop pos).find? (·.kind == .eof) = some eof :=
    Option.isSome_iff_exists.mp (List.find?_isSome.mpr ⟨last, hmem, by simpa using hkind⟩)
  obtain ⟨heof, inside, more, hsplit, hinside⟩ := List.find?_eq_some_iff_append.mp hfind
  obtain ⟨s, htokens, -, hsees⟩ :=
    Stretch.exists_sees hsplit (by simpa using heof) (by simpa using hinside)
  exact ⟨s, inside, htokens, hsees⟩

/-- A statement comes to an outcome from everywhere, and if it is read, the cursor has moved. -/
theorem exists_statement_withEnd {ts : List Token} {pos : Nat} (h : pos < (withEnd ts).length) :
    ∃ r, ∃ pos' < (withEnd ts).length, statement (withEnd ts) pos = some (r, pos') ∧
      ((∃ s, r = .ok s ∧ pos < pos') ∨ ∃ e, r = .error (.error e)) := by
  obtain ⟨s, inside, htokens, hsees⟩ := exists_sees_withEnd h
  have hmatches := tracks_statement (Nat.le_refl _) s pos inside hsees (Nat.le_refl _)
  rw [← htokens, statement]
  generalize Parser.statement inside.length inside = x, Clause.statement.walk s.tokens pos = y
    at hmatches
  cases hmatches with
  | @ok a rest pos' sees least =>
    have hreach := hsees.reach.trans sees.reach.symm
    exact ⟨_, pos', sees.lt, rfl, .inl ⟨a, rfl, by omega⟩⟩
  | error lt => exact ⟨_, _, lt, rfl, .inr ⟨_, rfl⟩⟩

/-! ### Programs -/

/-- A program is read up to the first mark of the end, or its complaint is the error. -/
theorem program_withEnd (ts : List Token) :
    (∃ p, Parser.program (tokensBeforeEnd ts) = .ok p ∧
      program (withEnd ts) 0 = some (.ok p, (tokensBeforeEnd ts).length)) ∨
    (∃ c, ∃ pos < (withEnd ts).length, Parser.program (tokensBeforeEnd ts) = .error c ∧
      program (withEnd ts) 0 = some (.error (.error (c.toError (endToken ts))), pos)) := by
  obtain ⟨more, hmore⟩ := exists_withEnd_split ts
  obtain ⟨s, htokens, heof, hsees⟩ := Stretch.exists_sees
    (show (withEnd ts).drop 0 = _ from hmore) (kind_endToken ts) (kind_ne_of_mem_tokensBeforeEnd ts)
  rw [← htokens, ← heof]
  obtain ⟨p, hp, hwalk⟩ | ⟨c, pos, hc, hpos, hwalk⟩ := program_apply hsees
  · exact .inl ⟨p, hp, hwalk⟩
  · exact .inr ⟨c, pos, hpos, hc, hwalk⟩

/-- **A walk stops at the first mark of the end,** on any list of tokens.

A program comes to the outcome of `parseTokens`: the walk has an outcome, it never looks at a token
that does not exist, and the cursor is left in range.  So does a statement from any place in the
list, and if it is read, the cursor has moved.  Tokens without a mark of the end and the same
tokens with a mark and anything behind it spell the same program, and the cursor is left behind
those tokens; or they fail in the same way at the same token, where an error that the source ended
too early names the first mark of each list. -/
theorem program_stops_at_first_end :
    (∀ ts : List Token, ∃ pos < (withEnd ts).length,
      program (withEnd ts) 0 = some ((parseTokens ts).mapError Stop.error, pos)) ∧
    (∀ (ts : List Token) (pos : Nat), pos < (withEnd ts).length →
      ∃ r, ∃ pos' < (withEnd ts).length, statement (withEnd ts) pos = some (r, pos') ∧
        ((∃ s, r = .ok s ∧ pos < pos') ∨ ∃ e, r = .error (.error e))) ∧
    ∀ (ts us : List Token) (eof : Token), (∀ t ∈ ts, t.kind ≠ .eof) → eof.kind = .eof →
      (∃ p, program (withEnd ts) 0 = some (.ok p, ts.length) ∧
        program (withEnd (ts ++ eof :: us)) 0 = some (.ok p, ts.length)) ∨
      ∃ e e' pos pos', program (withEnd ts) 0 = some (.error (.error e), pos) ∧
        program (withEnd (ts ++ eof :: us)) 0 = some (.error (.error e'), pos') ∧
        e'.kind = e.kind ∧ e'.expected = e.expected ∧
        (e.kind ≠ .cutShort → e'.token = e.token) ∧
        (e.kind = .cutShort → (withEnd ts).find? (·.kind == .eof) = some e.token ∧
          (withEnd (ts ++ eof :: us)).find? (·.kind == .eof) = some e'.token) := by
  refine ⟨fun ts => ?_, fun ts pos h => exists_statement_withEnd h, fun ts us eof hts heof => ?_⟩
  · rw [parseTokens_eq]
    obtain ⟨p, hp, hwalk⟩ | ⟨c, pos, hpos, hc, hwalk⟩ := program_withEnd ts
    · obtain ⟨more, hmore⟩ := exists_withEnd_split ts
      rw [hp]
      exact ⟨_, by rw [hmore]; simp, hwalk⟩
    · rw [hc]
      exact ⟨pos, hpos, hwalk⟩
  · have hbefore : tokensBeforeEnd ts = ts := tokensBeforeEnd_of_kind_ne hts
    have hwhole := program_withEnd ts
    have hmarked := program_withEnd (ts ++ eof :: us)
    rw [hbefore] at hwhole
    rw [tokensBeforeEnd_append hts eof heof] at hmarked
    rw [find?_withEnd, find?_withEnd]
    obtain ⟨p, hp, hwalk⟩ | ⟨c, pos, -, hc, hwalk⟩ := hwhole
    · obtain ⟨p', hp', hwalk'⟩ | ⟨c, pos, -, hc, -⟩ := hmarked
      · obtain rfl := Except.ok.inj (hp.symm.trans hp')
        exact .inl ⟨p, hwalk, hwalk'⟩
      · cases hp.symm.trans hc
    · obtain ⟨p, hp, -⟩ | ⟨c', pos', -, hc', hwalk'⟩ := hmarked
      · cases hc.symm.trans hp
      · obtain rfl := Except.error.inj (hc.symm.trans hc')
        refine .inr ⟨_, _, pos, pos', hwalk, hwalk', rfl, rfl, ?_⟩
        obtain ⟨kind, token, -⟩ | ⟨-, kind, token, -, -, -⟩ := Parser.fault_of_program hc
        · exact ⟨fun _ => by simp [Complaint.toError, token], fun h => absurd h kind⟩
        · exact ⟨fun h => absurd kind h, fun _ => by simp [Complaint.toError, token]⟩

/-- A list that is not closed: the bracket behind the mark of the end does not close it. -/
theorem program_stops_at_first_end_unclosed :
    (∃ r, ∃ pos' < 3, statement (withEnd [⟨.lbrack, "[", ⟨"", 1, 1⟩⟩, ⟨.number, "1", ⟨"", 1, 2⟩⟩]) 0
      = some (r, pos')) ∧
    ∃ e e' pos pos',
      program (withEnd [⟨.lbrack, "[", ⟨"", 1, 1⟩⟩, ⟨.number, "1", ⟨"", 1, 2⟩⟩]) 0
        = some (.error (.error e), pos) ∧
      program (withEnd [⟨.lbrack, "[", ⟨"", 1, 1⟩⟩, ⟨.number, "1", ⟨"", 1, 2⟩⟩,
        ⟨.eof, "", ⟨"", 2, 1⟩⟩, ⟨.rbrack, "]", ⟨"", 2, 2⟩⟩]) 0 = some (.error (.error e'), pos') ∧
      e.kind = .cutShort ∧ e'.kind = .cutShort ∧ e'.token = ⟨.eof, "", ⟨"", 2, 1⟩⟩ := by
  obtain ⟨hall, hstatement, hsame⟩ := program_stops_at_first_end
  constructor
  · obtain ⟨r, pos', hpos, hwalk, -⟩ := hstatement
      [⟨.lbrack, "[", ⟨"", 1, 1⟩⟩, ⟨.number, "1", ⟨"", 1, 2⟩⟩] 0 (by decide)
    exact ⟨r, pos', hpos, hwalk⟩
  · obtain ⟨pos, -, hwalk⟩ := hall [⟨.lbrack, "[", ⟨"", 1, 1⟩⟩, ⟨.number, "1", ⟨"", 1, 2⟩⟩]
    obtain ⟨p, hp, -⟩ | ⟨e, e', pos, pos', he, he', hkind, -, -, hcut⟩ :=
      hsame [⟨.lbrack, "[", ⟨"", 1, 1⟩⟩, ⟨.number, "1", ⟨"", 1, 2⟩⟩] [⟨.rbrack, "]", ⟨"", 2, 2⟩⟩]
        ⟨.eof, "", ⟨"", 2, 1⟩⟩ (by decide) rfl
    · cases hwalk.symm.trans hp
    · have hfirst : e.kind = .cutShort := by
        cases hwalk.symm.trans he
        rfl
      exact ⟨e, e', pos, pos', he, he', hfirst, hkind.trans hfirst,
        (Option.some.inj (hcut hfirst).2).symm⟩

end Walk

end ListCalc
