/-
Numbers keep their value.

A number goes on for as long as there are digits, points and separators.  With at
most one point among them all of these are taken, and the text of the token is the
same number in canonical form: digits, a point and digits.  A second point spoils the
number, and it is not taken itself.

* `isNumberChar`, `pointValue` — what a number is made of, and what it amounts to;
* `Scanner.next_of_few_points`, `Scanner.next_of_second_point` — a call at a number;
* `tokenize_numeral` — a number in canonical form is one token;
* `Number.read?_eq_none_iff` — it cannot be read exactly if it is too large for a
  double;
* `numbers_keep_value` — all of this, and that parsed programs fail over no other
  numbers.
-/
import ListCalc.Proofs.Guarded
import ListCalc.Proofs.Number.Range
import ListCalc.Proofs.Token.Calls

namespace ListCalc

/-! ### Runs -/

/-- A character that can continue a number. -/
def isNumberChar (c : Char) : Bool := isDigit c || c == '.' || c == '_'

/-- A run with few enough points is taken as a whole. -/
theorem numberSpan_of_few_points (pointSeen : Bool) {cs : List Char}
    (h : (cs.takeWhile isNumberChar).count '.' + pointSeen.toNat ≤ 1) :
    numberSpan pointSeen cs = (cs.takeWhile isNumberChar, cs.dropWhile isNumberChar) := by
  induction cs generalizing pointSeen with
  | nil => rfl
  | cons c cs ih =>
    rw [numberSpan]
    by_cases hdigit : (isDigit c || c == '_') = true
    · have hc : isNumberChar c = true := by grind [isNumberChar]
      have hpoint : c ≠ '.' := by
        rintro rfl
        exact absurd hdigit (by decide)
      rw [List.takeWhile_cons_of_pos hc, List.count_cons_of_ne hpoint] at h
      rw [if_pos hdigit, ih pointSeen h, List.takeWhile_cons_of_pos hc,
        List.dropWhile_cons_of_pos hc]
    · rw [if_neg hdigit]
      by_cases hpoint : c = '.'
      · subst hpoint
        rw [List.takeWhile_cons_of_pos (by decide), List.count_cons_self] at h
        have hseen : pointSeen = false := by
          cases pointSeen with
          | false => rfl
          | true => simp at h
        have hrest := ih true (by simpa [hseen] using h)
        rw [if_pos (by simp [hseen]), hrest, List.takeWhile_cons_of_pos (by decide),
          List.dropWhile_cons_of_pos (by decide)]
      · have hc : ¬ isNumberChar c = true := by grind [isNumberChar]
        rw [if_neg (by simp [hpoint]), List.takeWhile_cons_of_neg hc,
          List.dropWhile_cons_of_neg hc]

/-- A run with a point too many is taken up to that point. -/
theorem numberSpan_of_second_point (pointSeen : Bool) {cs : List Char}
    (h : 2 ≤ (cs.takeWhile isNumberChar).count '.' + pointSeen.toNat) :
    ∃ front back, cs.takeWhile isNumberChar = front ++ '.' :: back ∧
      front.count '.' + pointSeen.toNat = 1 ∧
      numberSpan pointSeen cs = (front, '.' :: back ++ cs.dropWhile isNumberChar) := by
  induction cs generalizing pointSeen with
  | nil => cases pointSeen <;> simp at h
  | cons c cs ih =>
    by_cases hc : isNumberChar c = true
    · rw [List.takeWhile_cons_of_pos hc, List.dropWhile_cons_of_pos hc] at *
      rw [numberSpan]
      by_cases hpoint : c = '.'
      · subst hpoint
        cases pointSeen with
        | true =>
          refine ⟨[], cs.takeWhile isNumberChar, rfl, rfl, ?_⟩
          rw [if_neg (by decide), if_neg (by decide), List.cons_append,
            List.takeWhile_append_dropWhile]
        | false =>
          obtain ⟨front, back, hrun, hcount, hspan⟩ := ih true (by simpa using h)
          refine ⟨'.' :: front, back, by rw [hrun]; rfl, by simpa using hcount, ?_⟩
          rw [if_neg (by decide), if_pos (by decide), hspan]
      · rw [List.count_cons_of_ne hpoint] at h
        obtain ⟨front, back, hrun, hcount, hspan⟩ := ih pointSeen h
        refine ⟨c :: front, back, by rw [hrun]; rfl, ?_, ?_⟩
        · rwa [List.count_cons_of_ne hpoint]
        · rw [if_pos (by grind [isNumberChar]), hspan]
    · rw [List.takeWhile_cons_of_neg hc] at h
      cases pointSeen <;> simp at h

/-! ### Values -/

/-- The number that digits with at most one point amount to, separators apart.  A part that is
missing is zero. -/
def pointValue (cs : List Char) : ℚ :=
  let digits := cs.filter (· != '_')
  let whole := digits.takeWhile (· != '.')
  let fraction := (digits.dropWhile (· != '.')).tail
  Nat.ofDigitChars 10 whole 0 + Nat.ofDigitChars 10 fraction 0 / 10 ^ fraction.length

section

variable {run whole fraction : List Char}

theorem ne_point_of_digits (h : ∀ d ∈ whole, isDigit d = true) : ∀ d ∈ whole, (d != '.') = true :=
  fun d hd => bne_iff_ne.mpr (ne_of_isDigit (h d hd) (by decide))

theorem pointValue_of_digits (hrun : run.filter (· != '_') = whole)
    (hwhole : ∀ d ∈ whole, isDigit d = true) :
    pointValue run = Nat.ofDigitChars 10 whole 0 := by
  have hpoint := ne_point_of_digits hwhole
  rw [pointValue, hrun]
  simp only [List.takeWhile_eq_self_iff.mpr hpoint, List.dropWhile_eq_nil_iff.mpr hpoint]
  simp

theorem pointValue_of_point (hrun : run.filter (· != '_') = whole ++ '.' :: fraction)
    (hwhole : ∀ d ∈ whole, isDigit d = true) :
    pointValue run = Nat.ofDigitChars 10 whole 0 +
      Nat.ofDigitChars 10 fraction 0 / 10 ^ fraction.length := by
  have hpoint := ne_point_of_digits hwhole
  rw [pointValue, hrun]
  simp only [List.takeWhile_append_of_pos hpoint, List.dropWhile_append_of_pos hpoint]
  simp

end

/-- **The canonical form of a run amounts to the same.** -/
theorem pointValue_canonicalNumber (cs : List Char) :
    pointValue (canonicalNumber (numberSpan false cs).1) = pointValue (numberSpan false cs).1 := by
  have hzero : Nat.ofDigitChars 10 ['0'] 0 = 0 := rfl
  obtain ⟨whole, hwhole, hfilter | ⟨fraction, hfilter, hfraction⟩⟩ := filter_numberSpan_false cs
  · rw [canonicalNumber_of_digits hfilter hwhole, pointValue_of_digits hfilter hwhole,
      pointValue_of_point (filter_of_point hwhole isDigit_of_mem_zero) hwhole, hzero]
    norm_num
  · have hwhole' := isDigit_of_mem_ite hwhole
    have hfraction' := isDigit_of_mem_ite hfraction
    rw [canonicalNumber_of_point hfilter hwhole hfraction, pointValue_of_point hfilter hwhole,
      pointValue_of_point (filter_of_point hwhole' hfraction') hwhole']
    -- A part that is missing is written as a zero, which is what it amounts to.
    congr 1
    · by_cases hempty : whole = [] <;> simp [hempty, hzero]
    · by_cases hempty : fraction = [] <;> simp [hempty, hzero]

/-! ### Numbers in canonical form -/

/-- All characters of a number in canonical form are taken. -/
theorem isNumberChar_of_isNumeral {text : String} (h : IsNumeral text) :
    ∀ c ∈ text.toList, isNumberChar c = true := by
  obtain ⟨whole, fraction, htext, -, -, hwhole, hfraction⟩ := h
  intro c hc
  rw [htext, List.mem_append, List.mem_cons] at hc
  rcases hc with hc | rfl | hc
  · simp [isNumberChar, hwhole c hc]
  · decide
  · simp [isNumberChar, hfraction c hc]

theorem count_point_of_isNumeral {text : String} (h : IsNumeral text) :
    text.toList.count '.' = 1 := by
  obtain ⟨whole, fraction, htext, -, -, hwhole, hfraction⟩ := h
  have hnone : ∀ {ds : List Char}, (∀ d ∈ ds, isDigit d = true) → ds.count '.' = 0 := by
    intro ds hds
    exact List.count_eq_zero.mpr fun hmem => absurd (hds '.' hmem) (by decide)
  rw [htext, List.count_append, List.count_cons_self, hnone hwhole, hnone hfraction]

namespace Number

/-- A number in canonical form is read as its value, rounded to a double. -/
theorem exists_pointed {text : String} (h : IsNumeral text) :
    ∃ n p, Pointed text n p ∧ 0 < p ∧ (n : ℚ) / 10 ^ p = pointValue text.toList := by
  obtain ⟨whole, fraction, htext, hne, hne', hwhole, hfraction⟩ := h
  refine ⟨_, _, ⟨whole, fraction, htext, hne, hwhole, hfraction, rfl, rfl⟩,
    List.length_pos_iff.mpr hne', ?_⟩
  rw [htext, pointValue_of_point (filter_of_point hwhole hfraction) hwhole,
    Nat.ofDigitChars_append, Nat.ofDigitChars_eq_ofDigitChars_zero]
  push_cast
  field_simp

/-- **A number in canonical form cannot be read exactly if it is too large for a double.** -/
theorem read?_eq_none_iff {text : String} (h : IsNumeral text) :
    read? text = none ↔ limit ≤ pointValue text.toList := by
  obtain ⟨n, p, hpointed, hp, hvalue⟩ := exists_pointed h
  rw [hpointed.read?_eq, ofDecimal?_eq_none_iff hp, hvalue]

end Number

/-! ### Calls -/

section

variable {c : Char} {cs : List Char}

theorem lexeme_number (hc : (isDigit c || c == '.') = true) {run rest : List Char}
    (hspan : numberSpan false (c :: cs) = (run, rest)) :
    lexeme c cs = if rest.head? = some '.' then
        ⟨.number, String.ofList (wholeDigits run ++ ['.']), run, rest, false⟩
      else ⟨.number, String.ofList (canonicalNumber run), run, rest, true⟩ := by
  have hline : c ≠ '\n' := by
    rintro rfl
    exact absurd hc (by decide)
  have hletter : ¬ isLetter c = true := by
    rcases Bool.or_eq_true_iff.mp hc with hdigit | hpoint
    · simp [isLetter_of_isDigit hdigit]
    · rw [eq_of_beq hpoint]
      decide
  rw [lexeme, if_neg hline, if_neg hletter, if_pos hc, hspan]

/-- A number with at most one point is taken as a whole. -/
theorem lexeme_of_few_points (hc : (isDigit c || c == '.') = true)
    (h : ((c :: cs).takeWhile isNumberChar).count '.' ≤ 1) :
    lexeme c cs = ⟨.number, String.ofList (canonicalNumber ((c :: cs).takeWhile isNumberChar)),
      (c :: cs).takeWhile isNumberChar, (c :: cs).dropWhile isNumberChar, true⟩ := by
  have hnext : ((c :: cs).dropWhile isNumberChar).head? ≠ some '.' := by
    intro hhead
    have := List.head?_dropWhile_not isNumberChar (c :: cs)
    rw [hhead] at this
    exact absurd this (by decide)
  rw [lexeme_number hc (numberSpan_of_few_points false h), if_neg hnext]

/-- A number with a second point is taken up to that point. -/
theorem lexeme_of_second_point (hc : (isDigit c || c == '.') = true)
    (h : 2 ≤ ((c :: cs).takeWhile isNumberChar).count '.') :
    ∃ front back, (c :: cs).takeWhile isNumberChar = front ++ '.' :: back ∧
      front.count '.' = 1 ∧
      lexeme c cs = ⟨.number, String.ofList (wholeDigits front ++ ['.']), front,
        '.' :: back ++ (c :: cs).dropWhile isNumberChar, false⟩ := by
  obtain ⟨front, back, hrun, hcount, hspan⟩ := numberSpan_of_second_point false h
  refine ⟨front, back, hrun, hcount, ?_⟩
  rw [lexeme_number hc hspan, if_pos (by simp)]

/-- The text of a number is the number in canonical form. -/
theorem isNumeral_of_few_points (hc : (isDigit c || c == '.') = true)
    (h : ((c :: cs).takeWhile isNumberChar).count '.' ≤ 1) :
    IsNumeral (String.ofList (canonicalNumber ((c :: cs).takeWhile isNumberChar))) ∧
      pointValue (canonicalNumber ((c :: cs).takeWhile isNumberChar)) =
        pointValue ((c :: cs).takeWhile isNumberChar) := by
  have hspan := numberSpan_of_few_points false h
  have hnumeral := isNumeral_canonicalNumber hc cs
  have hvalue := pointValue_canonicalNumber (c :: cs)
  rw [hspan] at hnumeral hvalue
  exact ⟨hnumeral, hvalue⟩

end

/-- **A number in canonical form is one token.** -/
theorem tokenize_numeral {text : String} (h : IsNumeral text) (file : String) :
    tokenize file text = .ok [⟨.number, text, ⟨file, 1, 1⟩⟩,
      ⟨.eof, "", Place.behind file text.toList⟩] := by
  have hall := isNumberChar_of_isNumeral h
  have hcanonical := canonicalNumber_of_isNumeral h
  have hcount := count_point_of_isNumeral h
  have hdigit : ∃ c cs, text.toList = c :: cs ∧ isDigit c = true := by
    obtain ⟨whole, fraction, htext, hne, -, hwhole, -⟩ := h
    obtain ⟨c, cs, rfl⟩ := List.exists_cons_of_ne_nil hne
    exact ⟨c, cs ++ '.' :: fraction, htext, hwhole c List.mem_cons_self⟩
  obtain ⟨c, cs, htext, hc⟩ := hdigit
  have htake := List.takeWhile_eq_self_iff.mpr hall
  have hdrop := List.dropWhile_eq_nil_iff.mpr hall
  rw [htext] at htake hdrop
  have hfew : ((c :: cs).takeWhile isNumberChar).count '.' ≤ 1 := by rw [htake, ← htext, hcount]
  have hlexeme := lexeme_of_few_points (by simp [hc]) hfew
  rw [htake, hdrop, ← htext, hcanonical, String.ofList_toList] at hlexeme
  have hscan : scan ⟨file, 1, 1⟩ text.toList = .ok [⟨.number, text, ⟨file, 1, 1⟩⟩] := by
    rw [htext, scan_lexeme _ (isGap_of_isDigit hc), hlexeme]
    dsimp only
    rw [if_pos rfl, scan_nil]
    rfl
  rw [tokenize_eq, afterAll_start, hscan]
  rfl

namespace Scanner

variable {s : Scanner} {c : Char} {cs : List Char}

/-- A call at a number with at most one point. -/
theorem next_of_few_points (hs : s.rest.dropWhile isGap = c :: cs)
    (hc : (isDigit c || c == '.') = true)
    (h : ((c :: cs).takeWhile isNumberChar).count '.' ≤ 1) :
    ∃ text, IsNumeral text ∧
      pointValue text.toList = pointValue ((c :: cs).takeWhile isNumberChar) ∧
      s.next = (.ok ⟨.number, text, s.skipGap.place⟩,
        ⟨s.skipGap.place.afterAll ((c :: cs).takeWhile isNumberChar),
          (c :: cs).dropWhile isNumberChar, s.ended⟩) := by
  obtain ⟨hnumeral, hvalue⟩ := isNumeral_of_few_points hc h
  refine ⟨_, hnumeral, by rwa [String.toList_ofList], ?_⟩
  rw [next_of_lexeme hs, lexeme_of_few_points hc h]
  rfl

/-- A call at a number with a second point. -/
theorem next_of_second_point (hs : s.rest.dropWhile isGap = c :: cs)
    (hc : (isDigit c || c == '.') = true)
    (h : 2 ≤ ((c :: cs).takeWhile isNumberChar).count '.') :
    ∃ front back, (c :: cs).takeWhile isNumberChar = front ++ '.' :: back ∧
      front.count '.' = 1 ∧
      s.next = (.error ⟨.secondPoint, .number, String.ofList (wholeDigits front ++ ['.']),
          s.skipGap.place⟩,
        ⟨s.skipGap.place.afterAll front, '.' :: back ++ (c :: cs).dropWhile isNumberChar,
          s.ended⟩) := by
  obtain ⟨front, back, hrun, hcount, hlexeme⟩ := lexeme_of_second_point hc h
  refine ⟨front, back, hrun, hcount, ?_⟩
  rw [next_of_lexeme hs, hlexeme]
  rfl

end Scanner

/-! ### Parsed programs -/

/-- Parsed programs fail over numbers only if these are too large. -/
theorem Session.limit_le_of_literal {s : Session Token} (hs : s.Reachable Call.Parsed)
    {c : Call Token} (hc : c.Parsed) {t : Token} {detail : String}
    (h : (s.perform c).1 = .failed (.literal t detail)) :
    ∃ text, IsNumeral text ∧ detail = "invalid float literal " ++ Text.quote text ∧
      Number.limit ≤ pointValue text.toList := by
  have hlegible := hs.legible fun c hc => hc.legible
  obtain ⟨hfair, -⟩ := fair_perform hs.hasLastingFrame hlegible hc.legible
  obtain ⟨text, hnumeral, hread, hdetail⟩ := hfair _ h
  exact ⟨text, hnumeral, hdetail, (Number.read?_eq_none_iff hnumeral).mp hread⟩

/-- **Numbers keep their value.**  A call of the scanner at a number takes all digits, points and
separators if there is at most one point among them, and gives a text in canonical form that
amounts to the same and is one token by itself.  With a second point the call fails at the start of
the number, and takes what stands in front of that point.  So a number of a parsed program cannot
be read exactly if it is too large for a double, and programs fail over no other numbers. -/
theorem numbers_keep_value :
    (∀ (s : Scanner) (c : Char) (cs : List Char), s.rest.dropWhile isGap = c :: cs →
      (isDigit c || c == '.') = true →
      let run := (c :: cs).takeWhile isNumberChar
      let rest := (c :: cs).dropWhile isNumberChar
      let start := s.skipGap.place
      (run.count '.' ≤ 1 → ∃ text, IsNumeral text ∧
        pointValue text.toList = pointValue run ∧
        s.next = (.ok ⟨.number, text, start⟩, ⟨start.afterAll run, rest, s.ended⟩) ∧
        ∀ file, tokenize file text = .ok [⟨.number, text, ⟨file, 1, 1⟩⟩,
          ⟨.eof, "", Place.behind file text.toList⟩]) ∧
      (2 ≤ run.count '.' → ∃ front back, run = front ++ '.' :: back ∧ front.count '.' = 1 ∧
        s.next = (.error ⟨.secondPoint, .number, String.ofList (wholeDigits front ++ ['.']), start⟩,
          ⟨start.afterAll front, '.' :: back ++ rest, s.ended⟩))) ∧
    (∀ text, IsNumeral text →
      (Number.read? text = none ↔ Number.limit ≤ pointValue text.toList)) ∧
    ∀ s : Session Token, s.Reachable Call.Parsed → ∀ c : Call Token, c.Parsed → ∀ t detail,
      (s.perform c).1 = .failed (.literal t detail) →
      ∃ text, IsNumeral text ∧ detail = "invalid float literal " ++ Text.quote text ∧
        Number.limit ≤ pointValue text.toList := by
  refine ⟨fun s c cs hs hc => ⟨fun hfew => ?_, Scanner.next_of_second_point hs hc⟩,
    fun _ => Number.read?_eq_none_iff,
    fun s hs c hc t detail => Session.limit_le_of_literal hs hc⟩
  obtain ⟨text, hnumeral, hvalue, hnext⟩ := Scanner.next_of_few_points hs hc hfew
  exact ⟨text, hnumeral, hvalue, hnext, tokenize_numeral hnumeral⟩

/-- A program that is a number prints it. -/
theorem parse_numeral {text : String} (h : IsNumeral text) (file : String) :
    parse file text = .ok [.print ⟨.number, text, ⟨file, 1, 1⟩⟩
      (.number ⟨.number, text, ⟨file, 1, 1⟩⟩ text)] := by
  rw [parse, tokenize_numeral h]
  rfl

/-- A number that cannot be read is not printed. -/
theorem interpret_numeral {text : String} (h : Number.read? text = none) (t : Token)
    (out : Writer) :
    ((Session.start out).perform (.interpret 0 [.print t (.number t text)])).1 =
      .failed (.literal t ("invalid float literal " ++ Text.quote text)) := by
  have hrun : ∀ m, Stmt.runAll 0 [.print t (.number t text)] m =
      (.failed (.literal t ("invalid float literal " ++ Text.quote text)), m) := by
    intro m
    simp only [Stmt.runAll, Stmt.run, Stmt.runPrint, Expr.evalNow, Action.bind_apply, Action.query,
      Expr.eval, Expr.evalWith, readNumber, h]
    rfl
  rw [Session.perform, Session.interpret, Action.inFrame_apply (Stmt.grows_runAll _ _), hrun]

/-- A one with that many zeros behind it is too large. -/
theorem limit_le_zeros {n : ℕ} (hn : 310 ≤ n) :
    let text := String.ofList ('1' :: List.replicate n '0' ++ '.' :: ['0'])
    IsNumeral text ∧ Number.limit ≤ pointValue text.toList := by
  intro text
  have hwhole : ∀ d ∈ '1' :: List.replicate n '0', isDigit d = true :=
    List.forall_mem_cons.mpr ⟨rfl, Number.isDigit_of_mem_replicate n⟩
  have hone : Nat.ofDigitChars 10 ('1' :: List.replicate n '0') 0 = 10 ^ n := by
    rw [Nat.ofDigitChars_cons, Nat.ofDigitChars_replicate_zero]
    exact mul_one _
  refine ⟨⟨_, ['0'], String.toList_ofList, by simp, by simp, hwhole, isDigit_of_mem_zero⟩, ?_⟩
  rw [String.toList_ofList, pointValue_of_point (filter_of_point hwhole isDigit_of_mem_zero) hwhole,
    hone]
  calc Number.limit ≤ 10 ^ (310 : ℤ) := Number.limit_bounds.2.le
    _ ≤ 10 ^ (n : ℤ) := zpow_le_zpow_right₀ (by norm_num) (by exact_mod_cast hn)
    _ = ((10 ^ n : ℕ) : ℚ) := by push_cast; exact zpow_natCast 10 n
    _ ≤ _ := le_add_of_nonneg_right (by positivity)

/-- A fraction without a whole part and with separators behind a gap, a number with a second point,
and a program that consists of a number that is too large. -/
theorem numbers_keep_value_large :
    (∃ text, IsNumeral text ∧ pointValue text.toList = pointValue "._1_".toList ∧
      (Scanner.ofText "memo" " ._1_+").next =
        (.ok ⟨.number, text, ⟨"memo", 1, 2⟩⟩, ⟨⟨"memo", 1, 6⟩, ['+'], false⟩)) ∧
    (∃ front back, "1_.2.3".toList = front ++ '.' :: back ∧ front.count '.' = 1 ∧
      (Scanner.ofText "memo" "1_.2.3+").next =
        (.error ⟨.secondPoint, .number, String.ofList (wholeDigits front ++ ['.']), ⟨"memo", 1, 1⟩⟩,
          ⟨Place.afterAll ⟨"memo", 1, 1⟩ front, '.' :: back ++ ['+'], false⟩)) ∧
    ∃ (p : Program Token) (t : Token) (detail text : String),
      parse "memo" (String.ofList ('1' :: List.replicate 310 '0' ++ '.' :: ['0'])) = .ok p ∧
      ((Session.start (.fresh none)).perform (.interpret 0 p)).1 = .failed (.literal t detail) ∧
      IsNumeral text ∧ detail = "invalid float literal " ++ Text.quote text ∧
      Number.limit ≤ pointValue text.toList := by
  obtain ⟨hscan, hread, hrun⟩ := numbers_keep_value
  refine ⟨?_, ?_, ?_⟩
  · obtain ⟨text, hnumeral, hvalue, hnext, -⟩ :=
      (hscan (Scanner.ofText "memo" " ._1_+") '.' "_1_+".toList rfl rfl).1 (by decide)
    exact ⟨text, hnumeral, hvalue, hnext⟩
  · exact (hscan (Scanner.ofText "memo" "1_.2.3+") '1' "_.2.3+".toList rfl rfl).2 (by decide)
  · obtain ⟨hnumeral, hlarge⟩ := limit_le_zeros (Nat.le_refl 310)
    generalize String.ofList ('1' :: List.replicate 310 '0' ++ '.' :: ['0']) = large at *
    have hparse := parse_numeral hnumeral "memo"
    have hfails := interpret_numeral ((hread large hnumeral).mpr hlarge)
      ⟨.number, large, ⟨"memo", 1, 1⟩⟩ (.fresh none)
    obtain ⟨text, hnumeral, hdetail, hlarge⟩ :=
      hrun _ (.start _) (.interpret 0 _) ⟨_, _, hparse⟩ _ _ hfails
    exact ⟨_, _, _, text, hparse, hfails, hnumeral, hdetail, hlarge⟩

end ListCalc
