/-
Places have no meaning.

A token has a kind, a text and a place, and the place is only there to be told in
messages.  Two lists of tokens that differ in places spell the same program, or fail
at tokens with the same number; two programs that differ in places print the same
lines, bind the same names and fail in the same way.

The parser copies places and does nothing else with them (`program_relocate`), so one
run of it tells about both lists: the run on `numbered` tokens, whose places are their
numbers.  What that run answers becomes the answer to either list when the numbers are
replaced by the places of the tokens (`program_eq_numbered`).  For running, marks with
places and without do the same already (`mirrors_runAll`).

* `parseTokens_of_spelling` — lists of tokens that differ in places;
* `Session.interpret_map`, `Session.execute_map` — programs with other marks in
  sessions with other marks;
* `places_have_no_meaning` — both together.
-/
import ListCalc.Proofs.Blame
import ListCalc.Proofs.Marks.Run
import ListCalc.Proofs.Source
import ListCalc.Session

namespace ListCalc

variable {τ υ : Type}

/-- All of a token but its place. -/
def Token.spelling (t : Token) : Kind × String := (t.kind, t.text)

/-- The program without places: its marks are the kinds and texts of its tokens. -/
def Program.unplaced (p : Program Token) : Program (Kind × String) :=
  Stmt.mapAll Token.spelling p

theorem Program.unplaced_relocate (g : Place → Place) (p : Program Token) :
    Program.unplaced (Stmt.mapAll (Token.relocate g) p) = p.unplaced :=
  Stmt.mapAll_mapAll _ _ p

/-! ### Numbers in place of places -/

/-- Tokens whose places are their numbers in the list. -/
def numbered (ss : List (Kind × String)) : List Token :=
  ss.mapIdx fun i s => ⟨s.1, s.2, ⟨"", i, 0⟩⟩

/-- The place of the token of `ts` whose number `p` is. -/
def placeIn (ts : List Token) (p : Place) : Place :=
  (ts[p.line.toNat]?.map Token.place).getD p

/-- Tokens are numbered ones with their own places put in. -/
theorem relocate_numbered (ts : List Token) :
    (numbered (ts.map Token.spelling)).map (Token.relocate (placeIn ts)) = ts := by
  refine List.ext_getElem? ?_
  intro i
  rw [List.getElem?_map, numbered, List.getElem?_mapIdx, List.getElem?_map]
  cases ht : ts[i]? with
  | none => rfl
  | some t => simp [Token.relocate, placeIn, Token.spelling, ht]

/-- What tokens spell is what numbered ones spell, with the places put in. -/
theorem program_eq_numbered (ts : List Token) :
    Parser.program ts = match Parser.program (numbered (ts.map Token.spelling)) with
      | .ok p => .ok (Stmt.mapAll (Token.relocate (placeIn ts)) p)
      | .error c => .error (c.relocate (placeIn ts)) := by
  have hrun := Parser.program_relocate (placeIn ts) (numbered (ts.map Token.spelling))
  rw [relocate_numbered] at hrun
  exact hrun

/-- A numbered token stands where the token does that its number tells. -/
theorem getElem?_of_numbered {ts : List Token} {i : Nat} {t : Token}
    (h : (numbered (ts.map Token.spelling))[i]? = some t) :
    ts[i]? = some (t.relocate (placeIn ts)) := by
  have hmap := congrArg (·[i]?) (relocate_numbered ts)
  rw [← hmap]
  show ((numbered (ts.map Token.spelling)).map (Token.relocate (placeIn ts)))[i]? = _
  rw [List.getElem?_map, h]
  rfl

/-! ### Parsing -/

/-- The tokens before the end of the source, and the one that marks it. -/
def tokensToEnd (ts : List Token) : List Token := tokensBeforeEnd ts ++ [endToken ts]

theorem spelling_tokensBeforeEnd (ts : List Token) :
    (tokensBeforeEnd ts).map Token.spelling
      = (ts.map Token.spelling).takeWhile (·.1 != .eof) := by
  rw [tokensBeforeEnd, List.takeWhile_map]
  rfl

/-- The token of a complaint, by its number: that of the token, or the number of the end. -/
theorem exists_number {c : Complaint} {ss : List (Kind × String)}
    (h : Parser.program (numbered ss) = .error c) :
    ∃ i : Nat, ∀ ts, (tokensBeforeEnd ts).map Token.spelling = ss →
      (tokensToEnd ts)[i]?
        = some ((c.relocate (placeIn (tokensBeforeEnd ts))).toError (endToken ts)).token := by
  cases hc : c.token? with
  | none =>
    refine ⟨ss.length, ?_⟩
    intro ts hts
    have hlen : (tokensBeforeEnd ts).length = ss.length := by rw [← hts, List.length_map]
    simp [tokensToEnd, Complaint.toError, Complaint.relocate, hc, ← hlen]
  | some t =>
    obtain ⟨i, hi⟩ := List.mem_iff_getElem?.mp (Parser.mem_of_program_error h hc)
    refine ⟨i, ?_⟩
    intro ts hts
    rw [← hts] at hi
    have hplace := getElem?_of_numbered hi
    have hlt : i < (tokensBeforeEnd ts).length := (List.getElem?_eq_some_iff.mp hplace).1
    rw [tokensToEnd, List.getElem?_append_left hlt, hplace]
    simp [Complaint.toError, Complaint.relocate, hc]

/-- **Tokens that differ in places spell the same**, or fail in the same way at the same number. -/
theorem parseTokens_of_spelling {ts us : List Token}
    (h : ts.map Token.spelling = us.map Token.spelling) :
    (∃ p q, parseTokens ts = .ok p ∧ parseTokens us = .ok q ∧ p.unplaced = q.unplaced) ∨
    (∃ (e f : ParseError) (i : Nat), parseTokens ts = .error e ∧ parseTokens us = .error f ∧
      e.kind = f.kind ∧ e.expected = f.expected ∧
      (tokensToEnd ts)[i]? = some e.token ∧ (tokensToEnd us)[i]? = some f.token) := by
  have hinside : (tokensBeforeEnd us).map Token.spelling
      = (tokensBeforeEnd ts).map Token.spelling := by
    rw [spelling_tokensBeforeEnd, spelling_tokensBeforeEnd, h]
  rw [parseTokens_eq, parseTokens_eq, program_eq_numbered (tokensBeforeEnd ts),
    program_eq_numbered (tokensBeforeEnd us), hinside]
  -- Numbered, the two lists are one.
  cases hprog : Parser.program (numbered ((tokensBeforeEnd ts).map Token.spelling)) with
  | ok p =>
    refine .inl ⟨_, _, rfl, rfl, ?_⟩
    rw [Program.unplaced_relocate, Program.unplaced_relocate]
  | error c =>
    obtain ⟨i, hi⟩ := exists_number hprog
    exact .inr ⟨_, _, i, rfl, rfl, rfl, rfl, hi ts rfl, hi us hinside⟩

/-! ### Running -/

namespace Session

/-- The session with other marks in the meanings of its names. -/
def map (f : τ → υ) (s : Session τ) : Session υ := ⟨s.machine.map f, s.isOpen⟩

theorem opened_map (f : τ → υ) (s : Session τ) : (s.map f).opened = s.opened.map f := by
  obtain ⟨machine, isOpen⟩ := s
  cases isOpen <;> rfl

theorem interpret_map (f : τ → υ) (bound : Nat) (p : Program τ) (s : Session τ) :
    (s.map f).interpret bound (Stmt.mapAll f p)
      = ((s.interpret bound p).1.remark f, (s.interpret bound p).2.map f) := by
  have hframe := Action.mirrors_inFrame (Stmt.mirrors_runAll f bound p) .program s.machine
  simp only [interpret, map, hframe]

theorem execute_map (f : τ → υ) (bound : Nat) (p : Program τ) (s : Session τ) :
    (s.map f).execute bound (Stmt.mapAll f p)
      = ((s.execute bound p).1.remark f, (s.execute bound p).2.map f) := by
  have hrun := Stmt.mirrors_runAll f bound p s.opened.machine
  rw [execute, opened_map]
  simp only [execute, map, hrun]

end Session

/-- Two runs that differ in places only: what they have written, how they end, and the names that
they leave behind with their meanings. -/
structure Alike (r r' : Outcome Token Unit × Session Token) : Prop where
  out : r.2.machine.out = r'.2.machine.out
  outcome : r.1.remark Token.spelling = r'.1.remark Token.spelling
  names : r.2.machine.names.map Token.spelling = r'.2.machine.names.map Token.spelling
  isOpen : r.2.isOpen = r'.2.isOpen

/-- Runs that are the same without places are alike. -/
theorem alike_of_eq {r r' : Outcome Token Unit × Session Token}
    (h : (r.1.remark Token.spelling, r.2.map Token.spelling)
      = (r'.1.remark Token.spelling, r'.2.map Token.spelling)) : Alike r r' := by
  obtain ⟨houtcome, hsession⟩ := Prod.mk.inj h
  obtain ⟨hmachine, hopen⟩ := Session.mk.inj hsession
  obtain ⟨hnames, hout⟩ := Machine.mk.inj hmachine
  exact ⟨hout, houtcome, hnames, hopen⟩

/-- **Places have no meaning.**  Tokens that agree in kinds and texts both spell programs, and
these differ in places only, or both fail, in the same way and at tokens with the same number.
Programs that differ in places only, run in sessions that do, in frames of their own or in the
lasting ones, write the same lines, end in the same way, a failure differing in the place of its
token, and leave the same names with the same meanings, but for places in the bodies of
functions. -/
theorem places_have_no_meaning :
    (∀ ts us : List Token, ts.map Token.spelling = us.map Token.spelling →
      (∃ p q, parseTokens ts = .ok p ∧ parseTokens us = .ok q ∧ p.unplaced = q.unplaced) ∨
      (∃ (e f : ParseError) (i : Nat), parseTokens ts = .error e ∧ parseTokens us = .error f ∧
        e.kind = f.kind ∧ e.expected = f.expected ∧
        (tokensToEnd ts)[i]? = some e.token ∧ (tokensToEnd us)[i]? = some f.token)) ∧
    (∀ p q : Program Token, p.unplaced = q.unplaced →
      ∀ (bound : Nat) (s s' : Session Token), s.map Token.spelling = s'.map Token.spelling →
        Alike (s.interpret bound p) (s'.interpret bound q) ∧
        Alike (s.execute bound p) (s'.execute bound q)) := by
  refine ⟨fun ts us h => parseTokens_of_spelling h, ?_⟩
  intro p q hpq bound s s' hs
  have hprogram : Stmt.mapAll Token.spelling p = Stmt.mapAll Token.spelling q := hpq
  constructor
  · refine alike_of_eq ?_
    rw [← Session.interpret_map, ← Session.interpret_map, hs, hprogram]
  · refine alike_of_eq ?_
    rw [← Session.execute_map, ← Session.execute_map, hs, hprogram]

/-- A definition and a call of it, written twice, with other gaps and under another label.  The
function is defined in an open session, and its body keeps its places. -/
theorem places_have_no_meaning_layout :
    ∃ ts us p q, tokenize "first" "f(x) = [x, 1]\nf(2) + 3" = .ok ts ∧
      tokenize "second" "f( x )=[x,1.0]\n\tf(2_.) +\t3" = .ok us ∧
      parseTokens ts = .ok p ∧ parseTokens us = .ok q ∧ p.unplaced = q.unplaced ∧
      ∀ bound out, Alike ((Session.start out).execute bound p)
        ((Session.start out).execute bound q) := by
  have hspell : (tokenize "first" "f(x) = [x, 1]\nf(2) + 3").toOption.map
        (·.map Token.spelling)
      = (tokenize "second" "f( x )=[x,1.0]\n\tf(2_.) +\t3").toOption.map
        (·.map Token.spelling) := by decide +kernel
  have hfirst : (parse "first" "f(x) = [x, 1]\nf(2) + 3").toBool = true := by decide +kernel
  have hsecond : (tokenize "second" "f( x )=[x,1.0]\n\tf(2_.) +\t3").toBool = true := by
    decide +kernel
  obtain ⟨us, hus⟩ := exists_of_toBool hsecond
  cases hts : tokenize "first" "f(x) = [x, 1]\nf(2) + 3" with
  | error e =>
    rw [parse, hts] at hfirst
    cases hfirst
  | ok ts =>
    rw [parse, hts] at hfirst
    rw [hts, hus] at hspell
    rcases places_have_no_meaning.1 ts us (Option.some.inj hspell) with
      ⟨p, q, hp, hq, hpq⟩ | ⟨e, f, i, he, -⟩
    · refine ⟨ts, us, p, q, rfl, hus, hp, hq, hpq, ?_⟩
      intro bound out
      exact (places_have_no_meaning.2 p q hpq bound (.start out) (.start out) rfl).2
    · simp only [he] at hfirst
      cases hfirst

end ListCalc
