/-
What more text does to a source.

Behind a program and a line end, a source means what it means alone, further down.
Behind an error that is not for want of text, nothing matters any more.  And where a
source is cut short, text can be found that completes it: on the same line always, and
on the next line if a line end in that place is skipped.

* `parse_behind_program` — a source behind a program;
* `parse_behind_definitive_error` — a source behind an error, and entries that are
  handed over with one;
* `parse_of_incomplete` — a source that is cut short, and the lines that complete an
  entry;
* `parseTokens_of_cutShort` — tokens that are cut short.
-/
import ListCalc.Proofs.Completion.Stmt
import ListCalc.Proofs.Conversation
import ListCalc.Proofs.Spelling.Scan

namespace ListCalc

open Token

/-! ### Behind a program -/

/-- The place some lines further down. -/
def Place.lower (lines : Int) (p : Place) : Place := { p with line := p.line + lines }

theorem steady_lower (lines : Int) : Steady (Place.lower lines) := by
  intro p c
  have hfile : (p.after c).file = p.file := by
    rw [Place.after]
    split <;> rfl
  calc Place.lower lines (p.after c)
      = Place.shift p.file lines (p.after c) := by rw [Place.lower, Place.shift, hfile]
    _ = (Place.lower lines p).after c := steady_shift p.file lines p c

/-- Behind a source that spells a program and a line end, a source means what it means alone, with
all lines counted from there: it spells its statements, with their marks further down, behind
those of the program; or it fails with the same kind of error, at a token of the same text and
column further down. -/
theorem parse_behind_program {file a : String} {p : Program Token} (h : parse file a = .ok p)
    (b : String) :
    let down := Token.relocate (Place.lower (1 + a.toList.count '\n'))
    (∀ q, parse file b = .ok q →
      parse file (a ++ "\n" ++ b) = .ok (p ++ Stmt.mapAll down q)) ∧
    (∀ e, parse file b = .error (.scan e) →
      parse file (a ++ "\n" ++ b) = .error (.scan ⟨e.kind, down e.token⟩)) ∧
    (∀ e, parse file b = .error (.parse e) →
      parse file (a ++ "\n" ++ b) = .error (.parse ⟨e.kind, down e.token, e.expected⟩)) := by
  have hplace : Place.lower (1 + a.toList.count '\n') ⟨file, 1, 1⟩
      = (Place.afterAll ⟨file, 1, 1⟩ a.toList).after '\n' := (after_afterAll_newline _ _).symm
  rw [parse_append_of_steady (steady_lower _) hplace h]
  refine ⟨fun q hq => ?_, fun e he => ?_, fun e he => ?_⟩
  · rw [hq]
  · rw [he]
    rfl
  · rw [he]
    rfl

/-- A list that is not closed, behind two lines of a program. -/
theorem parse_behind_program_list :
    ∃ p, parse "join" "x = 2\nx" = .ok p ∧
      parse "join" "[x,\n)"
        = .error (.parse ⟨.unexpectedToken, ⟨.rparen, ")", ⟨"join", 2, 1⟩⟩, ""⟩) ∧
      parse "join" ("x = 2\nx" ++ "\n" ++ "[x,\n)")
        = .error (.parse ⟨.unexpectedToken, ⟨.rparen, ")", ⟨"join", 4, 1⟩⟩, ""⟩) := by
  obtain ⟨p, hp⟩ := exists_of_toBool
    (show (parse "join" "x = 2\nx").toBool = true by decide +kernel)
  have hlist : parse "join" "[x,\n)"
      = .error (.parse ⟨.unexpectedToken, ⟨.rparen, ")", ⟨"join", 2, 1⟩⟩, ""⟩) :=
    eq_error_of_error? (by decide +kernel)
  exact ⟨p, hp, hlist, (parse_behind_program hp "[x,\n)").2.2 _ hlist⟩

/-! ### What an error says -/

/-- A source fails to be scanned, or its tokens fail to be parsed. -/
theorem parseFrom_eq_error_iff {p : Place} {cs : List Char} {e : SourceError} :
    parseFrom p cs = .error e ↔
      (∃ x, scan p cs = .error x ∧ e = .scan x) ∨
      ∃ ts c, scan p cs = .ok ts ∧ Parser.program ts = .error c ∧
        e = .parse (c.toError ⟨.eof, "", p.afterAll cs⟩) := by
  rw [parseFrom]
  cases scan p cs with
  | error x => simp [eq_comm]
  | ok ts => cases hprog : Parser.program ts <;> simp [hprog, eq_comm]

theorem toList_append_newline (a b : String) :
    (a ++ "\n" ++ b).toList = a.toList ++ '\n' :: b.toList := by
  simp [String.toList_append]

theorem isIncomplete_toError (c : Complaint) (eof : Token) :
    (SourceError.parse (c.toError eof)).isIncomplete = true ↔ c.kind = .cutShort :=
  beq_iff_eq

/-! ### Behind an error -/

/-- What becomes of a definitive error `e` on a longer source: the source fails with `e'`, which is
definitive too, and the same unless the scanner stops the parser. -/
structure Persists (p : Place) (cs : List Char) (e e' : SourceError) : Prop where
  error : parseFrom p cs = .error e'
  definitive : e'.isIncomplete = false
  scan : ∀ x, e = .scan x → e' = .scan x
  parse : ∀ x, e = .parse x → (∃ ts, ListCalc.scan p cs = .ok ts) → e' = .parse x

/-- An error that is not for want of text is made again, unless it is the parser's and what
follows fails to be scanned. -/
theorem parseFrom_append_of_definitive {p : Place} {a : List Char} {e : SourceError}
    (h : parseFrom p a = .error e) (hkind : ∀ x, e = .parse x → x.kind ≠ .cutShort)
    (b : List Char) : ∃ e', Persists p (a ++ '\n' :: b) e e' := by
  have hscan := scan_append_newline p a b
  rcases parseFrom_eq_error_iff.mp h with ⟨x, hx, rfl⟩ | ⟨ts, c, hts, hc, rfl⟩
  · rw [hx] at hscan
    refine ⟨.scan x, parseFrom_eq_error_iff.mpr (.inl ⟨x, hscan, rfl⟩), rfl, ?_, ?_⟩
    · exact fun y hy => hy
    · exact fun y hy => by cases hy
  · rw [hts] at hscan
    cases hb : ListCalc.scan ((p.afterAll a).after '\n') b with
    | error x =>
      rw [hb] at hscan
      refine ⟨.scan x, parseFrom_eq_error_iff.mpr (.inl ⟨x, hscan, rfl⟩), rfl, ?_, ?_⟩
      · exact fun y hy => by cases hy
      · rintro y - ⟨us, hus⟩
        rw [hus] at hscan
        cases hscan
    | ok us =>
      rw [hb] at hscan
      have hcut : c.kind ≠ .cutShort := hkind _ rfl
      have hjoin := Parser.program_append_of_error (show (Token.mk .newline "\n"
        (p.afterAll a)).kind = .newline from rfl) us hc hcut
      -- The error names a token of the first part, so the end of the source does not show in it.
      cases Parser.fault_of_program hc with
      | stalled us kind => exact absurd kind hcut
      | @refused t _ token _ =>
        have hsame : ∀ eof, c.toError eof = ⟨c.kind, t, c.expected⟩ := by
          intro eof
          rw [Complaint.toError, token]
          rfl
        refine ⟨.parse (c.toError _), parseFrom_eq_error_iff.mpr (.inr ⟨_, c, hscan, hjoin, rfl⟩),
          ?_, ?_, ?_⟩
        · exact beq_eq_false_iff_ne.mpr hcut
        · exact fun y hy => by cases hy
        · rintro y hy -
          rw [← hy, hsame, hsame]

namespace Entry

theorem isIncomplete_of_error {source : String} {e : SourceError}
    (h : parse Session.entryLabel source = .error e) : isIncomplete source = e.isIncomplete := by
  rw [isIncomplete, h]

/-- Nothing is handed over as long as text is wanting. -/
theorem isIncomplete_of_ending {p : Prompts} {pending text : String}
    {input : List (Option String)} (h : (readFrom p pending input).ending = .entry text) :
    isIncomplete text = false := by
  induction input generalizing pending with
  | nil => cases h
  | cons line input ih =>
    cases line with
    | none => cases h
    | some line =>
      rw [readFrom, feed] at h
      cases hwant : isIncomplete (extend pending line) with
      | true =>
        simp only [hwant, if_true] at h
        exact ih h
      | false =>
        simp only [hwant, Bool.false_eq_true, if_false, Ending.entry.injEq] at h
        rw [← h]
        exact hwant

end Entry

/-- **Errors that are not for want of text stay.**  If a source fails to be scanned, or to be
parsed other than for being cut short, then it fails with any line end and text behind it, and
again not for want of text: with the same error if it is the scanner's, and also if it is the
parser's and the longer source can be scanned.  So an entry that is handed over and spells no
program spells none with further lines either. -/
theorem parse_behind_definitive_error :
    (∀ (file s : String) (e : SourceError), parse file s = .error e →
      (∀ x, e = .parse x → x.kind ≠ .cutShort) → ∀ r, ∃ e',
        parse file (s ++ "\n" ++ r) = .error e' ∧ e'.isIncomplete = false ∧
        (∀ x, e = .scan x → e' = .scan x) ∧
        (∀ x, e = .parse x → (∃ ts, tokenize file (s ++ "\n" ++ r) = .ok ts) →
          e' = .parse x)) ∧
    (∀ (p : Prompts) (input : List (Option String)) (text : String),
      (Entry.read p input).ending = .entry text →
      (∀ q, parse Session.entryLabel text ≠ .ok q) → ∀ more : List String, ∃ e',
        parse Session.entryLabel ("\n".intercalate (text :: more)) = .error e' ∧
        e'.isIncomplete = false) := by
  have hstays : ∀ (file s : String) (e : SourceError), parse file s = .error e →
      (∀ x, e = .parse x → x.kind ≠ .cutShort) → ∀ r,
        ∃ e', Persists ⟨file, 1, 1⟩ (s ++ "\n" ++ r).toList e e' := by
    intro file s e h hkind r
    rw [parse_eq_parseFrom] at h
    rw [toList_append_newline]
    exact parseFrom_append_of_definitive h hkind r.toList
  refine ⟨fun file s e h hkind r => ?_, fun p input text hread hno more => ?_⟩
  · obtain ⟨e', he'⟩ := hstays file s e h hkind r
    refine ⟨e', (parse_eq_parseFrom _ _).trans he'.error, he'.definitive, he'.scan, ?_⟩
    rintro x hx ⟨ts, hts⟩
    refine he'.parse x hx ?_
    rw [tokenize_eq] at hts
    cases hscan : scan ⟨file, 1, 1⟩ (s ++ "\n" ++ r).toList with
    | error y =>
      rw [hscan] at hts
      cases hts
    | ok us => exact ⟨us, rfl⟩
  · cases he : parse Session.entryLabel text with
    | ok q => exact absurd he (hno q)
    | error e =>
      have hfinal := Entry.isIncomplete_of_ending hread
      rw [Entry.isIncomplete_of_error he] at hfinal
      have hkind : ∀ x, e = .parse x → x.kind ≠ .cutShort := by
        rintro x rfl
        exact beq_eq_false_iff_ne.mp hfinal
      cases more with
      | nil => exact ⟨e, by simpa using he, hfinal⟩
      | cons line more =>
        obtain ⟨e', he'⟩ := hstays _ text e he hkind ("\n".intercalate (line :: more))
        refine ⟨e', ?_, he'.definitive⟩
        rw [String.intercalate_cons_cons, parse_eq_parseFrom]
        exact he'.error

/-- A bracket out of place: no text behind it is looked at, and no line behind it helps. -/
theorem parse_behind_definitive_error_bracket :
    parse "entry" ("x = )" ++ "\n" ++ "y = 1")
        = .error (.parse ⟨.unexpectedToken, ⟨.rparen, ")", ⟨"entry", 1, 5⟩⟩, ""⟩) ∧
      ∀ more : List String, ∃ e,
        parse Session.entryLabel ("\n".intercalate ("x = )" :: more)) = .error e ∧
        e.isIncomplete = false := by
  constructor
  · have hfails : parse "entry" "x = )"
        = .error (.parse ⟨.unexpectedToken, ⟨.rparen, ")", ⟨"entry", 1, 5⟩⟩, ""⟩) :=
      eq_error_of_error? (by decide +kernel)
    obtain ⟨ts, hts⟩ := exists_of_toBool
      (show (tokenize "entry" ("x = )" ++ "\n" ++ "y = 1")).toBool = true by decide +kernel)
    obtain ⟨e, he, -, -, hsame⟩ := parse_behind_definitive_error.1 _ _ _ hfails
      (fun x hx => SourceError.parse.inj hx ▸ by decide) "y = 1"
    rw [he, hsame _ rfl ⟨ts, hts⟩]
  · refine parse_behind_definitive_error.2 ⟨"> ", ". "⟩ [some "x = )"] "x = )"
      (by decide +kernel) fun q hq => ?_
    have hok : (parse Session.entryLabel "x = )").toBool = false := by decide +kernel
    rw [hq] at hok
    cases hok

/-! ### Text for tokens -/

/-- Every token of a completion can be written down. -/
theorem exists_spells_of_mem_fillers : ∀ u ∈ Parser.fillers, ∃ cs, Spells cs [u] := by
  have hsymbol : ∀ c, isSymbol c = true → ∃ cs, Spells cs [symbol c] :=
    fun c hc => ⟨[c], fun b us _ h => scans_symbol hc h⟩
  have hword : ∀ w : String, (w.toList.head?.any isLetter && w.toList.all isWordChar) = true →
      ∃ cs, Spells cs [word w] := fun w hw => ⟨w.toList, spells_keyword w hw⟩
  have hzero : IsNumeral "0.0" :=
    ⟨['0'], ['0'], rfl, by simp, by simp, isDigit_of_mem_zero, isDigit_of_mem_zero⟩
  simp only [Parser.fillers, List.forall_mem_cons]
  refine ⟨⟨_, spells_numeral hzero⟩, hword _ ?_, hsymbol _ ?_, hsymbol _ ?_, hsymbol _ ?_,
    hsymbol _ ?_, hsymbol _ ?_, hword _ ?_, hword _ ?_, hword _ ?_, hword _ ?_, hword _ ?_,
    ⟨['\n'], fun b us _ h => scans_newline h⟩, by simp⟩
  all_goals decide +kernel

/-- So can completions, with spaces between their tokens. -/
theorem exists_scans_of_fillers {us : List Token} (h : ∀ u ∈ us, u ∈ Parser.fillers) :
    ∃ cs, Scans cs us := by
  induction us with
  | nil => exact ⟨[], scans_nil⟩
  | cons u us ih =>
    rw [List.forall_mem_cons] at h
    obtain ⟨cs, hcs⟩ := exists_spells_of_mem_fillers u h.1
    obtain ⟨more, hmore⟩ := ih h.2
    exact ⟨cs ++ ' ' :: more, spells_spaced hcs hmore⟩

/-- Whether tokens spell a program does not depend on their places. -/
theorem exists_program_of_relocate_eq {g : Place → Place} {ts us : List Token}
    (h : ts.map (Token.relocate g) = us.map (Token.relocate g))
    (hts : ∃ p, Parser.program ts = .ok p) : ∃ q, Parser.program us = .ok q := by
  obtain ⟨p, hp⟩ := hts
  have hsame := Parser.program_relocate g us
  rw [← h, Parser.program_relocate g ts, hp] at hsame
  cases hq : Parser.program us with
  | ok q => exact ⟨q, rfl⟩
  | error c =>
    rw [hq] at hsame
    cases hsame

/-- Tokens that complete a program can be written behind it. -/
theorem exists_parseFrom_of_fillers {p : Place} {a : List Char} {ts us : List Token}
    (hts : scan p a = .ok ts) (hus : ∀ u ∈ us, u ∈ Parser.fillers)
    (hprog : ∃ q, Parser.program (ts ++ us) = .ok q) :
    ∃ cs q, parseFrom p (a ++ cs) = .ok q := by
  obtain ⟨cs, hcs⟩ := exists_scans_of_fillers hus
  obtain ⟨vs, hvs, hmap⟩ := scans_space hcs (p.afterAll a)
  have hscan : scan p (a ++ ' ' :: cs) = .ok (ts ++ vs) := by
    rw [scan_append (by decide), hts, hvs]
    rfl
  -- The tokens differ from those of the scan in their places.
  have hplaces : (ts ++ us).map (Token.relocate fun _ => default)
      = (ts ++ vs).map (Token.relocate fun _ => default) := by
    rw [List.map_append, List.map_append, hmap, ← hmap, List.map_map]
    rfl
  obtain ⟨q, hq⟩ := exists_program_of_relocate_eq hplaces hprog
  exact ⟨' ' :: cs, q, parseFrom_eq_ok_iff.mpr ⟨_, hscan, hq⟩⟩

/-! ### Behind a source that is cut short -/

/-- A source that is cut short can be completed where it ends.  Behind a line end it is cut short
again, or nothing completes it. -/
theorem parseFrom_of_incomplete {p : Place} {a : List Char} {e : SourceError}
    (h : parseFrom p a = .error e) (hcut : e.isIncomplete = true) :
    (∃ cs q, parseFrom p (a ++ cs) = .ok q) ∧
    ((∃ e', parseFrom p (a ++ ['\n']) = .error e' ∧ e'.isIncomplete = true) ∨
      ∀ b, ∃ e', parseFrom p (a ++ '\n' :: b) = .error e' ∧ e'.isIncomplete = false) := by
  rcases parseFrom_eq_error_iff.mp h with ⟨x, -, rfl⟩ | ⟨ts, c, hts, hc, rfl⟩
  · cases hcut
  · cases Parser.fault_of_program hc with
    | refused kind => exact absurd ((isIncomplete_toError c _).mp hcut) kind
    | stalled us kind token fill completes line =>
      refine ⟨exists_parseFrom_of_fillers hts fill completes, ?_⟩
      have hscan := fun b => scan_append_newline p a b
      simp only [hts, Except.bind] at hscan
      rcases line with hskips | hrefuses
      · have hlast := hscan []
        rw [scan_nil] at hlast
        refine .inl ⟨_, parseFrom_eq_error_iff.mpr (.inr ⟨_, c, hlast, hskips _ rfl, rfl⟩), ?_⟩
        exact (isIncomplete_toError c _).mpr kind
      · refine .inr fun b => ?_
        have hb := hscan b
        cases hrest : scan ((p.afterAll a).after '\n') b with
        | error x =>
          rw [hrest] at hb
          exact ⟨.scan x, parseFrom_eq_error_iff.mpr (.inl ⟨x, hb, rfl⟩), rfl⟩
        | ok vs =>
          rw [hrest] at hb
          obtain ⟨c', hc', hkind'⟩ := hrefuses ⟨.newline, "\n", p.afterAll a⟩ rfl vs
          refine ⟨_, parseFrom_eq_error_iff.mpr (.inr ⟨_, c', hb, hc', rfl⟩), ?_⟩
          exact beq_eq_false_iff_ne.mpr hkind'

/-- Behind a line end, text completes a source that is cut short if the line end leaves it so, and
nothing does otherwise. -/
theorem parse_newline_of_incomplete {file s : String} {e : SourceError}
    (h : parse file s = .error e) (hcut : e.isIncomplete = true) :
    (∃ e', parse file (s ++ "\n") = .error e' ∧ e'.isIncomplete = true ∧
      ∃ r q, parse file (s ++ "\n" ++ r) = .ok q) ∨
    ∀ r, ∃ e', parse file (s ++ "\n" ++ r) = .error e' ∧ e'.isIncomplete = false := by
  have hchars : (s ++ "\n").toList = s.toList ++ ['\n'] := by simp [String.toList_append]
  rw [parse_eq_parseFrom] at h
  rcases (parseFrom_of_incomplete h hcut).2 with ⟨e', he', hcut'⟩ | hfails
  · obtain ⟨cs, q, hq⟩ := (parseFrom_of_incomplete he' hcut').1
    refine .inl ⟨e', ?_, hcut', String.ofList cs, q, ?_⟩
    · rw [parse_eq_parseFrom, hchars, he']
    · rw [parse_eq_parseFrom, String.toList_append, hchars, String.toList_ofList, hq]
  · refine .inr fun r => ?_
    rw [parse_eq_parseFrom, toList_append_newline]
    exact hfails r.toList

/-- Every text is made of lines. -/
theorem exists_lines (cs : List Char) :
    ∃ line lines, ("\n".intercalate (line :: lines)).toList = cs ∧
      ∀ l ∈ line :: lines, '\n' ∉ l.toList := by
  induction cs with
  | nil => exact ⟨"", [], rfl, by simp⟩
  | cons c cs ih =>
    obtain ⟨line, lines, htext, hlines⟩ := ih
    rw [toList_intercalate_cons] at htext
    by_cases hc : c = '\n'
    · refine ⟨"", line :: lines, ?_, List.forall_mem_cons.mpr ⟨by simp, hlines⟩⟩
      rw [toList_intercalate_cons, List.flatMap_cons, List.append_assoc, htext, hc]
      rfl
    · rw [List.forall_mem_cons] at hlines
      refine ⟨String.ofList (c :: line.toList), lines, ?_, List.forall_mem_cons.mpr ⟨?_, hlines.2⟩⟩
      · rw [toList_intercalate_cons, String.toList_ofList, List.cons_append, htext]
      · simpa [String.toList_ofList, eq_comm, hc] using hlines.1

namespace Entry

theorem isIncomplete_iff {source : String} : isIncomplete source = true ↔
    ∃ e, parse Session.entryLabel source = .error e ∧ e.isIncomplete = true := by
  rw [isIncomplete]
  cases parse Session.entryLabel source <;> simp

/-- A line that leaves nothing wanting ends an entry. -/
theorem readFrom_of_complete (p : Prompts) {pending line : String}
    (hpending : isIncomplete pending = true)
    (h : isIncomplete (pending ++ "\n" ++ line) = false) (rest : List (Option String)) :
    readFrom p pending (some line :: rest)
      = ⟨.entry (pending ++ "\n" ++ line), [p.continuation], rest⟩ := by
  have hne : pending ≠ "" := by
    rintro rfl
    rw [isIncomplete_of_ok (parse_empty _)] at hpending
    cases hpending
  rw [readFrom, feed, extend, if_neg hne]
  simp only [h, Bool.false_eq_true, if_false, Prompts.choose, if_neg hne]

/-- If lines complete a pending text, then the first of them that do are read as an entry. -/
theorem exists_readFrom_of_parse (p : Prompts) {pending : String} {lines : List String}
    (hpending : isIncomplete pending = true) {prog : Program Token}
    (h : parse Session.entryLabel ("\n".intercalate (pending :: lines)) = .ok prog) :
    ∃ front q prompts, front <+: lines ∧
      readFrom p pending (front.map some)
        = ⟨.entry ("\n".intercalate (pending :: front)), prompts, []⟩ ∧
      parse Session.entryLabel ("\n".intercalate (pending :: front)) = .ok q := by
  induction hn : lines.length using Nat.strongRecOn generalizing lines prog with
  | ind n ih =>
    subst hn
    have hjoin : parse Session.entryLabel ("\n".intercalate ([pending] ++ lines)) = .ok prog := h
    obtain ⟨front, rest, q, r, prompts, hfront, hsplit, -, hread, hq, -, -⟩ :=
      readFrom_of_parse p (fun _ => by simpa using hpending) (List.cons_ne_nil _ _) hjoin
    obtain ⟨first, front, rfl⟩ := List.exists_cons_of_ne_nil hfront
    obtain ⟨rfl, rfl⟩ := List.cons.inj hsplit
    by_cases hrest : rest = []
    · -- All lines are used up.
      subst hrest
      refine ⟨front, q, prompts, ⟨[], rfl⟩, ?_, hq⟩
      simpa using hread
    · -- Fewer lines are enough.
      have hfewer : front.length < (front ++ rest).length := by
        rw [List.length_append]
        have hpos := List.length_pos_iff.mpr hrest
        omega
      obtain ⟨front', q', prompts', hfront', hread', hq'⟩ := ih front.length hfewer hq rfl
      exact ⟨front', q', prompts', hfront'.trans (List.prefix_append front rest), hread', hq'⟩

/-- Lines complete a pending text that a line end leaves wanting. -/
theorem exists_lines_of_incomplete (p : Prompts) {pending : String}
    (hpending : isIncomplete pending = true) (hline : isIncomplete (pending ++ "\n") = true) :
    ∃ lines q prompts, (∀ l ∈ lines, '\n' ∉ l.toList) ∧
      readFrom p pending (lines.map some)
        = ⟨.entry ("\n".intercalate (pending :: lines)), prompts, []⟩ ∧
      parse Session.entryLabel ("\n".intercalate (pending :: lines)) = .ok q := by
  obtain ⟨e, he, hcut⟩ := isIncomplete_iff.mp hpending
  rcases parse_newline_of_incomplete he hcut with ⟨-, -, -, r, q, hq⟩ | hfails
  · obtain ⟨line, lines, htext, hlines⟩ := exists_lines r.toList
    have hjoin : pending ++ "\n" ++ r = "\n".intercalate (pending :: line :: lines) := by
      rw [String.intercalate_cons_cons, String.toList_inj.mp htext]
    rw [hjoin] at hq
    obtain ⟨front, q', prompts, hfront, hread, hq'⟩ := exists_readFrom_of_parse p hpending hq
    exact ⟨front, q', prompts, fun l hl => hlines l (hfront.subset hl), hread, hq'⟩
  · obtain ⟨e', he', hfinal⟩ := hfails ""
    rw [String.append_empty] at he'
    rw [isIncomplete_of_error he', hfinal] at hline
    cases hline

/-- Any line ends an entry if the line end leaves nothing wanting, and the entry is an error. -/
theorem readFrom_of_final_line (p : Prompts) {pending : String}
    (hpending : isIncomplete pending = true) (hline : isIncomplete (pending ++ "\n") = false)
    (line : String) (rest : List (Option String)) :
    ∃ e, readFrom p pending (some line :: rest)
        = ⟨.entry (pending ++ "\n" ++ line), [p.continuation], rest⟩ ∧
      parse Session.entryLabel (pending ++ "\n" ++ line) = .error e := by
  obtain ⟨e, he, hcut⟩ := isIncomplete_iff.mp hpending
  rcases parse_newline_of_incomplete he hcut with ⟨e', he', hcut', -⟩ | hfails
  · rw [isIncomplete_of_error he', hcut'] at hline
    cases hline
  · obtain ⟨e', he', hfinal⟩ := hfails line
    have hwhole : isIncomplete (pending ++ "\n" ++ line) = false :=
      (isIncomplete_of_error he').trans hfinal
    exact ⟨e', readFrom_of_complete p hpending hwhole rest, he'⟩

end Entry

/-- **What completes a source that is cut short.**  There is text that does, on the same line.
Behind a line end, there is text that does exactly if the source is cut short with the line end
too; if it is not, then everything fails that starts with these two, and not for want of text.  So
where the second prompt is shown, there are lines that complete the entry, or else any line ends
it with an error. -/
theorem parse_of_incomplete :
    (∀ (file s : String) (e : SourceError), parse file s = .error e → e.isIncomplete = true →
      (∃ r q, parse file (s ++ r) = .ok q) ∧
      ((∃ r q, parse file (s ++ "\n" ++ r) = .ok q) ↔
        ∃ e', parse file (s ++ "\n") = .error e' ∧ e'.isIncomplete = true) ∧
      ((∃ r q, parse file (s ++ "\n" ++ r) = .ok q) ∨
        ∀ r, ∃ e', parse file (s ++ "\n" ++ r) = .error e' ∧ e'.isIncomplete = false)) ∧
    (∀ (p : Prompts) (pending : String), Entry.isIncomplete pending = true →
      (Entry.isIncomplete (pending ++ "\n") = true → ∃ lines q prompts,
        (∀ l ∈ lines, '\n' ∉ l.toList) ∧
        Entry.readFrom p pending (lines.map some)
          = ⟨.entry ("\n".intercalate (pending :: lines)), prompts, []⟩ ∧
        parse Session.entryLabel ("\n".intercalate (pending :: lines)) = .ok q) ∧
      (Entry.isIncomplete (pending ++ "\n") = false → ∀ line rest, ∃ e',
        Entry.readFrom p pending (some line :: rest)
          = ⟨.entry (pending ++ "\n" ++ line), [p.continuation], rest⟩ ∧
        parse Session.entryLabel (pending ++ "\n" ++ line) = .error e')) := by
  refine ⟨fun file s e h hcut => ⟨?_, ?_, ?_⟩, fun p pending hpending => ⟨?_, ?_⟩⟩
  · rw [parse_eq_parseFrom] at h
    obtain ⟨cs, q, hq⟩ := (parseFrom_of_incomplete h hcut).1
    refine ⟨String.ofList cs, q, ?_⟩
    rw [parse_eq_parseFrom, String.toList_append, String.toList_ofList, hq]
  · rcases parse_newline_of_incomplete h hcut with ⟨e', he', hcut', hmore⟩ | hfails
    · exact ⟨fun _ => ⟨e', he', hcut'⟩, fun _ => hmore⟩
    · constructor
      · rintro ⟨r, q, hq⟩
        obtain ⟨e', he', -⟩ := hfails r
        rw [he'] at hq
        cases hq
      · -- The line end alone is refused as well.
        rintro ⟨e', he', hcut'⟩
        obtain ⟨e'', he'', hfinal⟩ := hfails ""
        rw [String.append_empty, he'] at he''
        rw [← Except.error.inj he'', hcut'] at hfinal
        cases hfinal
  · rcases parse_newline_of_incomplete h hcut with ⟨-, -, -, hmore⟩ | hfails
    · exact .inl hmore
    · exact .inr hfails
  · exact Entry.exists_lines_of_incomplete p hpending
  · exact Entry.readFrom_of_final_line p hpending

/-- An open list goes on behind a line end. -/
theorem parse_of_incomplete_list :
    (∃ r q, parse "list" ("x = [1," ++ "\n" ++ r) = .ok q) ∧
      ∃ lines q, parse Session.entryLabel ("\n".intercalate ("x = [1," :: lines)) = .ok q := by
  constructor
  · have hlist : parse "list" "x = [1,"
        = .error (.parse ⟨.cutShort, ⟨.eof, "", ⟨"list", 1, 8⟩⟩, ""⟩) :=
      eq_error_of_error? (by decide +kernel)
    have hline : parse "list" ("x = [1," ++ "\n")
        = .error (.parse ⟨.cutShort, ⟨.eof, "", ⟨"list", 2, 1⟩⟩, ""⟩) :=
      eq_error_of_error? (by decide +kernel)
    exact (parse_of_incomplete.1 _ _ _ hlist rfl).2.1.mpr ⟨_, hline, rfl⟩
  · obtain ⟨lines, q, -, -, -, hq⟩ := (parse_of_incomplete.2 ⟨"> ", ". "⟩ "x = [1,"
      (by decide +kernel)).1 (by decide +kernel)
    exact ⟨lines, q, hq⟩

/-- An assignment without a value is cut short, and no text on the next line completes it. -/
theorem assignment_ends_on_its_line :
    (∃ e, parse "line" "x =" = .error e ∧ e.isIncomplete = true) ∧
      ¬ ∃ r q, parse "line" ("x =" ++ "\n" ++ r) = .ok q := by
  have hcut : parse "line" "x =" = .error (.parse ⟨.cutShort, ⟨.eof, "", ⟨"line", 1, 4⟩⟩, ""⟩) :=
    eq_error_of_error? (by decide +kernel)
  have hline : parse "line" ("x =" ++ "\n")
      = .error (.parse ⟨.unexpectedToken, ⟨.newline, "\n", ⟨"line", 1, 4⟩⟩, ""⟩) :=
    eq_error_of_error? (by decide +kernel)
  refine ⟨⟨_, hcut, rfl⟩, ?_⟩
  rintro ⟨r, q, hq⟩
  rcases parse_newline_of_incomplete hcut rfl with ⟨e, he, hincomplete, -⟩ | hfails
  · rw [hline] at he
    rw [← Except.error.inj he] at hincomplete
    cases hincomplete
  · obtain ⟨e, he, -⟩ := hfails r
    rw [hq] at he
    cases he

/-! ### Tokens that are cut short -/

theorem parseTokens_eq_program {ts : List Token} (h : ∀ t ∈ ts, t.kind ≠ .eof) :
    parseTokens ts = match Parser.program ts with
      | .ok p => .ok p
      | .error c => .error (c.toError (endToken ts)) := by
  have hprogram := parseTokens_eq ts
  rw [tokensBeforeEnd_of_kind_ne h] at hprogram
  exact hprogram

/-- The end behind tokens that have none. -/
theorem endToken_of_getLast? {ts : List Token} (h : ∀ t ∈ ts, t.kind ≠ .eof) {last : Token}
    (hlast : ts.getLast? = some last) :
    endToken ts
      = ⟨.eof, "", { last.place with column := last.place.column + last.text.length }⟩ := by
  rw [endToken, find?_eof_eq_none h, hlast]

/-- **Tokens that are cut short are the front of a program.**  If tokens without an end fail to be
parsed for being cut short, then the error names the end that stands right behind the last of
them, and there are tokens that complete them. -/
theorem parseTokens_of_cutShort {ts : List Token} (hts : ∀ t ∈ ts, t.kind ≠ .eof)
    {e : ParseError} (h : parseTokens ts = .error e) (hkind : e.kind = .cutShort) :
    (∃ last, ts.getLast? = some last ∧ e.token
      = ⟨.eof, "", { last.place with column := last.place.column + last.text.length }⟩) ∧
    ∃ us p, (∀ u ∈ us, u.kind ≠ .eof) ∧ parseTokens (ts ++ us) = .ok p := by
  rw [parseTokens_eq_program hts] at h
  cases hc : Parser.program ts with
  | ok p =>
    rw [hc] at h
    cases h
  | error c =>
    rw [hc] at h
    obtain rfl := Except.error.inj h
    cases Parser.fault_of_program hc with
    | refused kind => exact absurd hkind kind
    | stalled us kind token fill completes line =>
      obtain ⟨p, hp⟩ := completes
      have hus : ∀ u ∈ us, u.kind ≠ .eof :=
        fun u hu => (Parser.kind_ne_of_mem_fillers u (fill u hu)).2
      refine ⟨?_, us, p, hus, ?_⟩
      · cases hlast : ts.getLast? with
        | none =>
          rw [List.getLast?_eq_none_iff.mp hlast] at hc
          cases hc
        | some last =>
          refine ⟨last, rfl, ?_⟩
          rw [Complaint.toError, token]
          exact endToken_of_getLast? hts hlast
      · rw [parseTokens_eq_program (List.forall_mem_append.mpr ⟨hts, hus⟩), hp]

/-- An assignment of a list that has just been opened. -/
theorem parseTokens_of_cutShort_list :
    (parseTokens [word "x", symbol '=', symbol '[']
      = .error ⟨.cutShort, ⟨.eof, "", ⟨"", 0, 1⟩⟩, ""⟩) ∧
    ∃ us p, (∀ u ∈ us, u.kind ≠ .eof) ∧
      parseTokens ([word "x", symbol '=', symbol '['] ++ us) = .ok p := by
  have hcut : parseTokens [word "x", symbol '=', symbol '[']
      = .error ⟨.cutShort, ⟨.eof, "", ⟨"", 0, 1⟩⟩, ""⟩ := eq_error_of_error? (by decide +kernel)
  exact ⟨hcut, (parseTokens_of_cutShort (by decide +kernel) hcut rfl).2⟩

end ListCalc
