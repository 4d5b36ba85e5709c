/-
Comments in sources.

A comment has any text behind its sign, up to the end of the line.  The scanner cuts
that text into tokens like any other, so it must be one that the scanner accepts.
Apart from that, all that counts is whether it has an equals sign:

* `exists_kind_iff_of_scan` — a text has a token for a character that stands by
  itself if it has the character;
* `parseFrom_reworded` — the text of a comment can be replaced by one with an equals
  sign or without, unless a statement on its line is undecided;
* `parse_withComment` — so it is with whole sources.
-/
import ListCalc.Proofs.Comment.Stmt
import ListCalc.Proofs.Source

namespace ListCalc

/-! ### Tokens of a text -/

/-- A text has a token of the kind that only the character `d` makes if it has the character. -/
theorem exists_kind_iff_of_scan {k : Kind} {d : Char} (hbreak : isBreak d = true)
    (hgap : isGap d = false) (hkind : ∀ c cs, (lexeme c cs).kind = k ↔ c = d)
    {p : Place} {cs : List Char} {ts : List Token} (h : scan p cs = .ok ts) :
    (∃ t ∈ ts, t.kind = k) ↔ d ∈ cs := by
  fun_induction scan p cs generalizing ts with
  | case1 p =>
    obtain rfl := Except.ok.inj h
    simp
  | case2 p c cs hc ih =>
    have hne : d ≠ c := by
      rintro rfl
      rw [hgap] at hc
      cases hc
    rw [ih h, List.mem_cons, or_iff_right hne]
  | case3 p c cs hc hwf ih =>
    cases hrest : scan (p.afterAll (lexeme c cs).taken) (lexeme c cs).rest with
    | error e =>
      rw [hrest] at h
      cases h
    | ok us =>
      rw [hrest] at h
      obtain rfl := Except.ok.inj h
      have htaken : d ∈ (lexeme c cs).taken ↔ c = d :=
        ⟨eq_of_mem_taken hbreak, fun h => h ▸ mem_taken c cs⟩
      simp only [List.mem_cons, exists_eq_or_imp]
      rw [ih hrest, hkind, ← htaken, ← List.mem_append, lexeme_taken_append, List.mem_cons]
  | case4 p c cs hc hwf => cases h

/-- A text that the scanner accepts at one place it accepts at every place. -/
theorem exists_scan_of_scan {p : Place} {cs : List Char} {ts : List Token}
    (h : scan p cs = .ok ts) (q : Place) : ∃ us, scan q cs = .ok us := by
  fun_induction scan p cs generalizing ts q with
  | case1 p => exact ⟨[], scan_nil q⟩
  | case2 p c cs hc ih =>
    rw [scan_gap q hc]
    exact ih h (q.after c)
  | case3 p c cs hc hwf ih =>
    cases hrest : scan (p.afterAll (lexeme c cs).taken) (lexeme c cs).rest with
    | error e =>
      rw [hrest] at h
      cases h
    | ok us =>
      obtain ⟨vs, hvs⟩ := ih hrest (q.afterAll (lexeme c cs).taken)
      rw [scan_lexeme q (by simpa using hc), if_pos hwf, hvs]
      exact ⟨_, rfl⟩
  | case4 p c cs hc hwf => cases h

/-! ### The words of a comment -/

/-- A text that can stand in a comment: it is on one line, and the scanner accepts it. -/
structure IsWords (c : List Char) : Prop where
  line : '\n' ∉ c
  accepted : ∃ p ts, scan p c = .ok ts

theorem isWords_nil : IsWords [] := ⟨List.not_mem_nil, default, [], scan_nil _⟩

theorem isWords_assign : IsWords ['='] := by
  refine ⟨by decide, default, [⟨.assign, "=", default⟩], ?_⟩
  rw [scan_lexeme _ (by decide)]
  show (scan _ []).map _ = _
  rw [scan_nil]
  rfl

/-- At every place the scanner makes tokens of such a text, none of them a line end, and with an
equals sign among them if the text has one. -/
theorem IsWords.scan {c : List Char} (h : IsWords c) (p : Place) :
    ∃ ws, scan p c = .ok ws ∧ (∀ t ∈ ws, t.kind ≠ .newline) ∧
      (ws.any (·.kind == .assign) = true ↔ '=' ∈ c) := by
  obtain ⟨hline, q, ts, hts⟩ := h
  obtain ⟨ws, hws⟩ := exists_scan_of_scan hts p
  refine ⟨ws, hws, fun t ht hk => ?_, ?_⟩
  · have hnewline := exists_kind_iff_of_scan isBreak_newline isGap_newline lexeme_kind_newline hws
    exact hline (hnewline.mp ⟨t, ht, hk⟩)
  · have hassign := exists_kind_iff_of_scan (by decide) (by decide) lexeme_kind_assign hws
    rw [← hassign, List.any_eq_true]
    simp

theorem scan_sign (p : Place) (cs : List Char) :
    scan p ('#' :: cs) = (scan (p.after '#') cs).map (⟨.comment, "#", p⟩ :: ·) := by
  rw [scan_lexeme p (by decide)]
  rfl

/-- The next line starts at the same place, whatever stands on this one. -/
theorem after_words {c : List Char} (h : '\n' ∉ c) (p : Place) :
    ((p.after '#').afterAll c).after '\n' = p.after '\n' := by
  have hcount : c.count '\n' = 0 := List.count_eq_zero.mpr h
  rw [after_afterAll_newline, hcount]
  rfl

/-- The tokens of a source with a comment. -/
theorem scan_comment {a c b : List Char} (h : '\n' ∉ c) {p : Place} {front ws us : List Token}
    (ha : scan p a = .ok front) (hc : scan ((p.afterAll a).after '#') c = .ok ws)
    (hb : scan ((p.afterAll a).after '\n') b = .ok us) :
    scan p (a ++ '#' :: (c ++ '\n' :: b))
      = .ok (front ++ ⟨.comment, "#", p.afterAll a⟩ ::
          (ws ++ ⟨.newline, "\n", ((p.afterAll a).after '#').afterAll c⟩ :: us)) := by
  rw [scan_append (by decide), ha, scan_sign, scan_append_newline, hc, after_words h]
  show Except.map _ (Except.map _ (Except.map _ (scan _ b))) = _
  rw [hb]
  rfl

/-- An error of the scanner in front of the comment, or behind its line, is the same with any
words. -/
theorem scan_comment_error {a c b : List Char} (h : IsWords c) {p : Place} {e : ScanError}
    (he : scan p a = .error e ∨
      (∃ front, scan p a = .ok front) ∧ scan ((p.afterAll a).after '\n') b = .error e) :
    scan p (a ++ '#' :: (c ++ '\n' :: b)) = .error e := by
  obtain ⟨ws, hws, -⟩ := h.scan ((p.afterAll a).after '#')
  rw [scan_append (by decide), scan_sign, scan_append_newline, hws, after_words h.line]
  rcases he with he | ⟨⟨front, hfront⟩, he⟩
  · rw [he]
    rfl
  · rw [hfront]
    show Except.map _ (Except.map _ (Except.map _ (scan _ b))) = _
    rw [he]
    rfl

theorem afterAll_comment {c : List Char} (h : '\n' ∉ c) (p : Place) (a b : List Char) :
    p.afterAll (a ++ '#' :: (c ++ '\n' :: b)) = ((p.afterAll a).after '\n').afterAll b := by
  have hstep : p.afterAll (a ++ '#' :: (c ++ '\n' :: b))
      = ((((p.afterAll a).after '#').afterAll c).after '\n').afterAll b := by
    simp [Place.afterAll, List.foldl_append]
  rw [hstep, after_words h]

/-! ### Sources with other words in a comment -/

/-- On the line of a comment behind `a`, a statement awaits an equals sign and has none in front of
the comment sign; the text `b` starts on the next line. -/
def Undecided (p : Place) (a b : List Char) : Prop :=
  ∃ front tail, scan p a = .ok front ∧ scan p (a ++ '#' :: '\n' :: b) = .ok (front ++ tail) ∧
    Parser.Undecided front tail

/-- The text of a comment can be replaced by any other one that has an equals sign if the first one
has one.  Only if a statement is undecided, a new equals sign can make the source fail. -/
theorem parseFrom_reworded {c c' : List Char} (hc : IsWords c) (hc' : IsWords c')
    (hkept : '=' ∈ c → '=' ∈ c') (p : Place) (a b : List Char) :
    parseFrom p (a ++ '#' :: (c ++ '\n' :: b)) = parseFrom p (a ++ '#' :: (c' ++ '\n' :: b)) ∨
    ((∃ e, parseFrom p (a ++ '#' :: (c' ++ '\n' :: b)) = .error (.parse e)) ∧ '=' ∉ c ∧ '=' ∈ c' ∧
      ∃ front tail, scan p a = .ok front ∧
        scan p (a ++ '#' :: (c ++ '\n' :: b)) = .ok (front ++ tail) ∧
        Parser.Undecided front tail) := by
  cases ha : scan p a with
  | error e =>
    refine .inl ?_
    rw [parseFrom, parseFrom, scan_comment_error hc (.inl ha), scan_comment_error hc' (.inl ha)]
  | ok front =>
    cases hb : scan ((p.afterAll a).after '\n') b with
    | error e =>
      refine .inl ?_
      have he : (∃ front, scan p a = .ok front) ∧ scan ((p.afterAll a).after '\n') b = .error e :=
        ⟨⟨front, ha⟩, hb⟩
      rw [parseFrom, parseFrom, scan_comment_error hc (.inr he), scan_comment_error hc' (.inr he)]
    | ok us =>
      obtain ⟨ws, hws, hline, hassign⟩ := hc.scan ((p.afterAll a).after '#')
      obtain ⟨ws', hws', hline', hassign'⟩ := hc'.scan ((p.afterAll a).after '#')
      -- The tokens differ in the words of the comment and in the place of the line end behind it.
      let r : Parser.Rewording :=
        { sign := ⟨.comment, "#", p.afterAll a⟩
          old := ws
          new := ws'
          oldEnd := ⟨.newline, "\n", ((p.afterAll a).after '#').afterAll c⟩
          newEnd := ⟨.newline, "\n", ((p.afterAll a).after '#').afterAll c'⟩
          rest := us
          sign_kind := rfl
          old_words := hline
          new_words := hline'
          oldEnd_kind := rfl
          newEnd_kind := rfl
          assign_kept := fun h => hassign'.mpr (hkept (hassign.mp h)) }
      have hold : scan p (a ++ '#' :: (c ++ '\n' :: b)) = .ok (front ++ r.oldTail) :=
        scan_comment hc.line ha hws hb
      have hnew : scan p (a ++ '#' :: (c' ++ '\n' :: b)) = .ok (front ++ r.newTail) :=
        scan_comment hc'.line ha hws' hb
      rw [parseFrom, parseFrom, hold, hnew, afterAll_comment hc.line, afterAll_comment hc'.line]
      dsimp only
      rcases Parser.Rewording.program_reworded r front with heq | ⟨⟨e, he⟩, hno, hyes, hundecided⟩
      · exact .inl (by rw [heq])
      · refine .inr ⟨⟨_, by rw [he]⟩, fun h => ?_, hassign'.mp hyes, front, r.oldTail, rfl, rfl,
          hundecided⟩
        exact absurd (hassign.mpr h) (Bool.eq_false_iff.mp hno)

/-- The text `p`, a comment with the text `c`, and the text `q` on the next line. -/
def withComment (p c q : String) : String := p ++ "#" ++ c ++ "\n" ++ q

theorem toList_withComment (p c q : String) :
    (withComment p c q).toList = p.toList ++ '#' :: (c.toList ++ '\n' :: q.toList) := by
  simp [withComment, String.toList_append]

/-- **The text of a comment does not matter, up to the presence of an equals sign.**  Let it be on
one line and be accepted by the scanner.  Without an equals sign, the source is parsed exactly as
with no text in the comment: the same program, or the same error at the same token.  With an
equals sign, it is parsed as if the text were just that, and this in turn is as with no text; or
else a statement is undecided that begins on the line of the comment, and the source is in
error. -/
theorem parse_withComment {c : String} (hline : '\n' ∉ c.toList)
    (haccepted : ∃ ts, tokenize "" c = .ok ts) (file p q : String) :
    ('=' ∉ c.toList → parse file (withComment p c q) = parse file (withComment p "" q)) ∧
    ('=' ∈ c.toList → parse file (withComment p c q) = parse file (withComment p "=" q) ∧
      (parse file (withComment p c q) = parse file (withComment p "" q) ∨
        (∃ e, parse file (withComment p c q) = .error (.parse e)) ∧
          Undecided ⟨file, 1, 1⟩ p.toList q.toList)) := by
  have hwords : IsWords c.toList := by
    obtain ⟨ts, hts⟩ := haccepted
    rw [tokenize_eq] at hts
    cases hscan : scan ⟨"", 1, 1⟩ c.toList with
    | error e =>
      rw [hscan] at hts
      cases hts
    | ok us => exact ⟨hline, _, us, hscan⟩
  have hempty := parseFrom_reworded isWords_nil hwords (fun h => absurd h List.not_mem_nil)
    ⟨file, 1, 1⟩ p.toList q.toList
  simp only [parse_eq_parseFrom, toList_withComment]
  refine ⟨fun hnone => ?_, fun hassign => ⟨?_, ?_⟩⟩
  · rcases hempty with heq | ⟨-, -, h, -⟩
    · exact heq.symm
    · exact absurd h hnone
  · rcases parseFrom_reworded isWords_assign hwords (fun _ => hassign) ⟨file, 1, 1⟩ p.toList
      q.toList with heq | ⟨-, h, -⟩
    · exact heq.symm
    · exact absurd List.mem_cons_self h
  · rcases hempty with heq | ⟨he, -, -, hundecided⟩
    · exact .inl heq.symm
    · exact .inr ⟨he, hundecided⟩

/-- Behind a declaration, an equals sign in a comment is without effect. -/
theorem parse_withComment_declaration :
    parse "note" (withComment "x = f(1) " " a = 1 " "x")
      = parse "note" (withComment "x = f(1) " "" "x") := by
  have hparse : (parse "note" (withComment "x = f(1) " " a = 1 " "x")).toBool = true := by
    decide +kernel
  have haccepted : (tokenize "" " a = 1 ").toBool = true := by decide +kernel
  obtain ⟨-, h⟩ := parse_withComment (c := " a = 1 ") (by decide +kernel)
    (exists_of_toBool haccepted) "note" "x = f(1) " "x"
  obtain ⟨-, heq | ⟨⟨e, he⟩, -⟩⟩ := h (by decide +kernel)
  · exact heq
  · -- The source is a program, so no statement of it is undecided.
    rw [he] at hparse
    cases hparse

/-- An equals sign in a comment makes a call in front of it look like a definition, and a number
in a comment may have a point too many for the scanner. -/
theorem comment_text_matters :
    (∃ prog, parse "note" (withComment "f(1) " "" "") = .ok prog) ∧
    (∃ e, parse "note" (withComment "f(1) " " a = b" "") = .error (.parse e)) ∧
    (∃ prog, parse "note" (withComment "1 " "" "") = .ok prog) ∧
    (∃ e, parse "note" (withComment "1 " " 1.2.3" "") = .error (.scan e)) := by
  have hcall : parse "note" (withComment "f(1) " " a = b" "")
      = .error (.parse ⟨.expected, ⟨.number, "1.0", ⟨"note", 1, 3⟩⟩, "parameter name"⟩) :=
    eq_error_of_error? (by decide +kernel)
  have hpoint : parse "note" (withComment "1 " " 1.2.3" "")
      = .error (.scan ⟨.secondPoint, ⟨.number, "1.2.", ⟨"note", 1, 5⟩⟩⟩) :=
    eq_error_of_error? (by decide +kernel)
  exact ⟨exists_of_toBool (by decide +kernel), ⟨_, hcall⟩, exists_of_toBool (by decide +kernel),
    ⟨_, hpoint⟩⟩

end ListCalc
