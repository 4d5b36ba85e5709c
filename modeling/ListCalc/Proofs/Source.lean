/-
How parsing composes.

Sources are read from a place on, `parseFrom`; `parse` starts at the first line
(`parse_eq_parseFrom`).  Behind a program that is complete, a line end separates:
what follows is parsed as if it stood alone, further down
(`parseFrom_append_of_ok`).  Behind a source that is in error for good, nothing
that follows mends it (`parseFrom_append_of_final`).  Where the source stands
shows in the marks only (`parseFrom_relocate`).
-/
import ListCalc.Proofs.Stmt.Parser
import ListCalc.Proofs.Token.Scan

namespace ListCalc

/-! ### Line ends -/

theorem isBreak_newline : isBreak '\n' = true := by decide

theorem isGap_newline : isGap '\n' = false := by decide

theorem scan_newline (p : Place) (cs : List Char) :
    scan p ('\n' :: cs) = (scan (p.after '\n') cs).map (⟨.newline, "\n", p⟩ :: ·) := by
  rw [scan_lexeme p isGap_newline]
  rfl

theorem scan_append_newline (p : Place) (a b : List Char) :
    scan p (a ++ '\n' :: b) = (scan p a).bind fun ts =>
      (scan ((p.afterAll a).after '\n') b).map (ts ++ ⟨.newline, "\n", p.afterAll a⟩ :: ·) := by
  rw [scan_append isBreak_newline]
  cases scan p a with
  | error e => rfl
  | ok ts =>
    show Except.map _ (scan _ ('\n' :: b)) = Except.map _ _
    rw [scan_newline]
    cases scan ((p.afterAll a).after '\n') b <;> rfl

/-! ### Sources from a place on -/

/-- The program that characters spell which start at `p`. -/
def parseFrom (p : Place) (cs : List Char) : Except SourceError (Program Token) :=
  match scan p cs with
  | .error e => .error (.scan e)
  | .ok ts =>
    match Parser.program ts with
    | .error c => .error (.parse (c.toError ⟨.eof, "", p.afterAll cs⟩))
    | .ok prog => .ok prog

theorem tokensBeforeEnd_append {ts us : List Token} (h : ∀ t ∈ ts, t.kind ≠ .eof) (eof : Token)
    (heof : eof.kind = .eof) : tokensBeforeEnd (ts ++ eof :: us) = ts := by
  have hall : ∀ t ∈ ts, (t.kind != .eof) = true := fun t ht => bne_iff_ne.mpr (h t ht)
  rw [tokensBeforeEnd, List.takeWhile_append_of_pos hall]
  simp [heof]

/-- Tokens without an end are all before the end. -/
theorem tokensBeforeEnd_of_kind_ne {ts : List Token} (h : ∀ t ∈ ts, t.kind ≠ .eof) :
    tokensBeforeEnd ts = ts := by
  have hall : ∀ t ∈ ts, (t.kind != .eof) = true := fun t ht => bne_iff_ne.mpr (h t ht)
  calc tokensBeforeEnd ts
      = (ts ++ []).takeWhile (·.kind != Kind.eof) := by rw [tokensBeforeEnd, List.append_nil]
    _ = ts := by rw [List.takeWhile_append_of_pos hall, List.takeWhile_nil, List.append_nil]

theorem find?_eof_eq_none {ts : List Token} (h : ∀ t ∈ ts, t.kind ≠ .eof) :
    ts.find? (·.kind == .eof) = none := by
  rw [List.find?_eq_none]
  intro t ht
  simpa using h t ht

theorem endToken_append {ts us : List Token} (h : ∀ t ∈ ts, t.kind ≠ .eof) (eof : Token)
    (heof : eof.kind = .eof) : endToken (ts ++ eof :: us) = eof := by
  simp [endToken, List.find?_append, find?_eof_eq_none h, heof]

/-- What tokens spell is the program of those before the end. -/
theorem parseTokens_eq (ts : List Token) :
    parseTokens ts = match Parser.program (tokensBeforeEnd ts) with
      | .ok p => .ok p
      | .error c => .error (c.toError (endToken ts)) := by
  rw [parseTokens, Parser.program]
  rcases Parser.statements (tokensBeforeEnd ts).length (tokensBeforeEnd ts) with c | ⟨p, rest⟩
  · rfl
  · rfl

theorem parse_eq_parseFrom (file source : String) :
    parse file source = parseFrom ⟨file, 1, 1⟩ source.toList := by
  rw [parse, tokenize_eq, parseFrom]
  cases hscan : scan ⟨file, 1, 1⟩ source.toList with
  | error e => rfl
  | ok ts =>
    have hts := kind_ne_eof_of_scan hscan
    simp only [Except.map, parseTokens_eq, tokensBeforeEnd_append hts ⟨.eof, "", _⟩ rfl,
      endToken_append hts ⟨.eof, "", _⟩ rfl]
    cases Parser.program ts <;> rfl

/-- A program that was parsed has a scan. -/
theorem parseFrom_eq_ok_iff {p : Place} {cs : List Char} {prog : Program Token} :
    parseFrom p cs = .ok prog ↔ ∃ ts, scan p cs = .ok ts ∧ Parser.program ts = .ok prog := by
  rw [parseFrom]
  cases scan p cs with
  | error e => simp
  | ok ts => cases hprog : Parser.program ts <;> simp [hprog]

/-! ### Places -/

/-- The failure with its token at another place. -/
def SourceError.relocate (g : Place → Place) : SourceError → SourceError
  | scan e => .scan (e.relocate g)
  | parse e => .parse { e with token := e.token.relocate g }

/-- At another place, a source spells the same program with its marks elsewhere, or fails in the
same way. -/
theorem parseFrom_relocate {g : Place → Place} (hg : Steady g) (p : Place) (cs : List Char) :
    parseFrom (g p) cs = match parseFrom p cs with
      | .ok prog => .ok (Stmt.mapAll (Token.relocate g) prog)
      | .error e => .error (e.relocate g) := by
  rw [parseFrom, parseFrom, scan_relocate hg]
  cases scan p cs with
  | error e => rfl
  | ok ts =>
    dsimp only
    rw [Parser.program_relocate, ← hg.afterAll]
    cases Parser.program ts with
    | ok prog => rfl
    | error c =>
      obtain ⟨kind, token?, expected⟩ := c
      cases token? <;> rfl

/-! ### One source behind another -/

/-- Behind a program and a line end, the next source is parsed as if it stood alone. -/
theorem parseFrom_append_of_ok {p : Place} {a : List Char} {prog : Program Token}
    (h : parseFrom p a = .ok prog) (b : List Char) :
    parseFrom p (a ++ '\n' :: b)
      = (parseFrom ((p.afterAll a).after '\n') b).map (prog ++ ·) := by
  obtain ⟨ts, hts, hprog⟩ := parseFrom_eq_ok_iff.mp h
  -- The end of the whole source is the end of its second part.
  have hplace : p.afterAll (a ++ '\n' :: b) = ((p.afterAll a).after '\n').afterAll b :=
    afterAll_append p a ('\n' :: b)
  rw [parseFrom, parseFrom, scan_append_newline, hts, hplace]
  simp only [Except.bind]
  cases scan ((p.afterAll a).after '\n') b with
  | error e => rfl
  | ok us =>
    have hjoin := Parser.program_append_of_ok (show (Token.mk .newline "\n" (p.afterAll a)).kind
      = .newline from rfl) us hprog
    simp only [Except.map, hjoin]
    cases Parser.program us <;> rfl

/-- A source that more text cannot complete stays in error whatever follows. -/
theorem parseFrom_append_of_final {p : Place} {a : List Char} {e : SourceError}
    (h : parseFrom p a = .error e) (hfinal : e.isIncomplete = false) (b : List Char) :
    ∃ e', parseFrom p (a ++ '\n' :: b) = .error e' := by
  rw [parseFrom] at h
  rw [parseFrom, scan_append_newline]
  cases hscan : scan p a with
  | error e' => exact ⟨_, rfl⟩
  | ok ts =>
    -- The first part scans, so its error is one of the parser.
    rw [hscan] at h
    simp only [Except.bind]
    cases scan ((p.afterAll a).after '\n') b with
    | error e' => exact ⟨_, rfl⟩
    | ok us =>
      cases hprog : Parser.program ts with
      | ok prog =>
        simp only [hprog] at h
        cases h
      | error c =>
        simp only [hprog] at h
        obtain rfl := Except.error.inj h
        have hkind : c.kind ≠ .cutShort := by
          intro hk
          simp [SourceError.isIncomplete, ParseError.isIncomplete, Complaint.toError, hk] at hfinal
        have hjoin := Parser.program_append_of_error (show (Token.mk .newline "\n"
          (p.afterAll a)).kind = .newline from rfl) us hprog hkind
        simp only [Except.map, hjoin]
        exact ⟨_, rfl⟩

/-! ### Whole sources -/

/-- The next line starts as far down as there are line ends. -/
theorem after_afterAll_newline (p : Place) (cs : List Char) :
    (p.afterAll cs).after '\n' = ⟨p.file, p.line + (1 + cs.count '\n'), 1⟩ := by
  induction cs generalizing p with
  | nil => rfl
  | cons c cs ih =>
    rw [show p.afterAll (c :: cs) = (p.after c).afterAll cs from rfl, ih, Place.after,
      List.count_cons]
    by_cases hc : c = '\n'
    · simp [hc]
      omega
    · simp [hc]

/-- Under another label, a source spells the same program up to marks. -/
theorem parse_relabel {file source : String} {prog : Program Token}
    (h : parse file source = .ok prog) (label : String) :
    ∃ prog', parse label source = .ok prog' ∧ Program.bare prog' = Program.bare prog := by
  rw [parse_eq_parseFrom] at h
  -- The label is part of every place, and nothing else changes.
  have hlabel := parseFrom_relocate (steady_shift label 0) ⟨file, 1, 1⟩ source.toList
  rw [h] at hlabel
  exact ⟨_, (parse_eq_parseFrom label source).trans hlabel, Program.bare_mapAll _ prog⟩

/-- A source behind a program and a line end is parsed as it is alone, with its places moved to
where it stands. -/
theorem parse_append_of_steady {file a : String} {g : Place → Place} (hg : Steady g)
    (hplace : g ⟨file, 1, 1⟩ = (Place.afterAll ⟨file, 1, 1⟩ a.toList).after '\n')
    {prog : Program Token} (h : parse file a = .ok prog) (b : String) :
    parse file (a ++ "\n" ++ b) = match parse file b with
      | .ok next => .ok (prog ++ Stmt.mapAll (Token.relocate g) next)
      | .error e => .error (e.relocate g) := by
  have hchars : (a ++ "\n" ++ b).toList = a.toList ++ '\n' :: b.toList := by
    simp [String.toList_append]
  rw [parse_eq_parseFrom] at h
  rw [parse_eq_parseFrom, parse_eq_parseFrom, hchars, parseFrom_append_of_ok h, ← hplace,
    parseFrom_relocate hg]
  cases parseFrom ⟨file, 1, 1⟩ b.toList <;> rfl

/-- A source behind a program and a line end is parsed as it is alone, further down. -/
theorem parse_append_of_ok {file a : String} {prog : Program Token} (h : parse file a = .ok prog)
    (b : String) :
    parse file (a ++ "\n" ++ b) = match parse file b with
      | .ok next => .ok (prog ++ Stmt.mapAll
          (Token.relocate (Place.shift file (1 + a.toList.count '\n'))) next)
      | .error e => .error (e.relocate (Place.shift file (1 + a.toList.count '\n'))) :=
  parse_append_of_steady (steady_shift _ _) (after_afterAll_newline _ _).symm h b

theorem parse_append_of_final {file a : String} {e : SourceError} (h : parse file a = .error e)
    (hfinal : e.isIncomplete = false) (b : String) :
    ∃ e', parse file (a ++ "\n" ++ b) = .error e' := by
  have hchars : (a ++ "\n" ++ b).toList = a.toList ++ '\n' :: b.toList := by
    simp [String.toList_append]
  rw [parse_eq_parseFrom] at h
  rw [parse_eq_parseFrom, hchars]
  exact parseFrom_append_of_final h hfinal b.toList

/-! ### Answers that are evaluated -/

/-- An answer that is no error can be had. -/
theorem exists_of_toBool {ε α : Type} {x : Except ε α} (h : x.toBool = true) :
    ∃ a, x = .ok a := by
  cases x with
  | ok a => exact ⟨a, rfl⟩
  | error e => cases h

/-- The error that stands in place of a result. -/
def error? {ε α : Type} : Except ε α → Option ε
  | .error e => some e
  | .ok _ => none

theorem eq_error_of_error? {ε α : Type} {x : Except ε α} {e : ε} (h : error? x = some e) :
    x = .error e := by
  cases x with
  | error e' => exact congrArg Except.error (Option.some.inj h)
  | ok a => cases h

/-! ### Blank sources -/

theorem scan_of_blank {cs : List Char} (h : cs.all Text.isBlank = true) (p : Place) :
    ∃ ts, scan p cs = .ok ts ∧ ∀ t ∈ ts, t.kind = .newline := by
  induction cs generalizing p with
  | nil => exact ⟨[], scan_nil p, by simp⟩
  | cons c cs ih =>
    rw [List.all_cons, Bool.and_eq_true] at h
    by_cases hc : c = '\n'
    · obtain ⟨ts, hts, hkind⟩ := ih h.2 (p.after '\n')
      refine ⟨⟨.newline, "\n", p⟩ :: ts, by rw [hc, scan_newline, hts]; rfl, fun t ht => ?_⟩
      rcases List.mem_cons.mp ht with rfl | ht
      · rfl
      · exact hkind t ht
    · have hgap : isGap c = true := by simp [isGap, hc, h.1]
      rw [scan_gap p hgap]
      exact ih h.2 (p.after c)

/-- A blank source spells the empty program. -/
theorem parse_of_allBlank (file : String) {source : String}
    (h : Text.allBlank source = true) : parse file source = .ok [] := by
  obtain ⟨ts, hts, hkind⟩ := scan_of_blank h ⟨file, 1, 1⟩
  have hprog : Parser.program ts = .ok [] := by
    clear hts
    induction ts with
    | nil => rfl
    | cons t ts ih =>
      rw [Parser.program_newline (hkind t List.mem_cons_self)]
      exact ih fun u hu => hkind u (List.mem_cons_of_mem t hu)
  rw [parse_eq_parseFrom]
  exact parseFrom_eq_ok_iff.mpr ⟨ts, hts, hprog⟩

end ListCalc
