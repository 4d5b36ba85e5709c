/-
How scanning composes.

`scan` is the scanner without its bound: it gives the tokens of some characters,
without the one for the end (`tokenize_eq`).  It is compatible with two things:

* cutting the characters in front of one that continues neither words nor numbers,
  such as a line end, cuts the tokens (`scan_append`);
* starting at another place puts the tokens at other places (`scan_relocate`).
-/
import ListCalc.Proofs.Parser
import ListCalc.Token.Scan

namespace ListCalc

/-! ### Lexemes -/

/-- A character that ends every word and every number in front of it. -/
def isBreak (c : Char) : Bool := !isWordChar c && c != '.'

theorem isBreak_iff (c : Char) : isBreak c = true ↔ isWordChar c = false ∧ c ≠ '.' := by
  simp [isBreak]

theorem isDigit_of_isBreak {c : Char} (h : isBreak c = true) : isDigit c = false :=
  (Bool.or_eq_false_iff.mp ((isBreak_iff c).mp h).1).2

theorem ne_underscore_of_isBreak {c : Char} (h : isBreak c = true) : c ≠ '_' := by
  rintro rfl
  exact absurd h (by decide)

theorem numberSpan_append_eq (pointSeen : Bool) (cs : List Char) :
    (numberSpan pointSeen cs).1 ++ (numberSpan pointSeen cs).2 = cs := by
  induction cs generalizing pointSeen with
  | nil => rfl
  | cons c cs ih =>
    rw [numberSpan]
    split
    · exact congrArg (c :: ·) (ih pointSeen)
    · split
      · exact congrArg (c :: ·) (ih true)
      · rfl

theorem numberSpan_append {d : Char} (hd : isBreak d = true) (b : List Char) (pointSeen : Bool)
    (cs : List Char) :
    numberSpan pointSeen (cs ++ d :: b)
      = ((numberSpan pointSeen cs).1, (numberSpan pointSeen cs).2 ++ d :: b) := by
  induction cs generalizing pointSeen with
  | nil =>
    simp [numberSpan, isDigit_of_isBreak hd, ne_underscore_of_isBreak hd, ((isBreak_iff d).mp hd).2]
  | cons c cs ih =>
    rw [List.cons_append, numberSpan, numberSpan]
    split
    · rw [ih]
    · split
      · rw [ih]
      · rfl

theorem takeWhile_append_break {d : Char} (hd : isBreak d = true) (b cs : List Char) :
    (cs ++ d :: b).takeWhile isWordChar = cs.takeWhile isWordChar := by
  have hword := ((isBreak_iff d).mp hd).1
  induction cs with
  | nil => simp [hword]
  | cons c cs ih => simp [List.takeWhile_cons, ih]

theorem dropWhile_append_break {d : Char} (hd : isBreak d = true) (b cs : List Char) :
    (cs ++ d :: b).dropWhile isWordChar = cs.dropWhile isWordChar ++ d :: b := by
  have hword := ((isBreak_iff d).mp hd).1
  induction cs with
  | nil => simp [hword]
  | cons c cs ih =>
    rw [List.cons_append, List.dropWhile_cons, List.dropWhile_cons, ih]
    split <;> rfl

/-- A lexeme goes no further than a character that ends words and numbers. -/
theorem lexeme_append {d : Char} (hd : isBreak d = true) (b : List Char) (c : Char)
    (cs : List Char) :
    lexeme c (cs ++ d :: b) = { lexeme c cs with rest := (lexeme c cs).rest ++ d :: b } := by
  have htake := takeWhile_append_break hd b (c :: cs)
  have hdrop := dropWhile_append_break hd b (c :: cs)
  have hspan := numberSpan_append hd b false (c :: cs)
  rw [List.cons_append] at htake hdrop hspan
  -- The first character decides between a line end, a word, a number and a symbol.
  rw [lexeme, lexeme]
  split
  · rfl
  · split
    · rw [htake, hdrop]
    · split
      · rw [hspan]
        -- The character behind is no point, so it does not spoil a number.
        have hpoint : ((numberSpan false (c :: cs)).2 ++ d :: b).head? = some '.'
            ↔ (numberSpan false (c :: cs)).2.head? = some '.' := by
          cases (numberSpan false (c :: cs)).2 with
          | nil => simp [((isBreak_iff d).mp hd).2]
          | cons e es => simp
        simp only [hpoint]
        split <;> rfl
      · rfl

theorem lexeme_taken_append (c : Char) (cs : List Char) :
    (lexeme c cs).taken ++ (lexeme c cs).rest = c :: cs := by
  have hspan := numberSpan_append_eq false (c :: cs)
  rw [lexeme]
  split
  · rfl
  · split
    · exact List.takeWhile_append_dropWhile
    · split
      · dsimp only
        split <;> exact hspan
      · rfl

theorem lexeme_taken_ne_nil (c : Char) (cs : List Char) : (lexeme c cs).taken ≠ [] := by
  rw [lexeme]
  split
  · exact List.cons_ne_nil _ _
  · split
    · next hletter =>
      have hword : isWordChar c = true := by simp [isWordChar, hletter]
      simp [hword]
    · split
      · next hnumber =>
        have hrun : (numberSpan false (c :: cs)).1 ≠ [] := by
          rw [numberSpan]
          split
          · exact List.cons_ne_nil _ _
          · next hdigit =>
            have hpoint : (c == '.' && !false) = true := by
              simp at hnumber hdigit ⊢
              simp_all
            rw [if_pos hpoint]
            exact List.cons_ne_nil _ _
        dsimp only
        split <;> exact hrun
      · exact List.cons_ne_nil _ _

theorem lexeme_rest_length (c : Char) (cs : List Char) :
    (lexeme c cs).rest.length < (c :: cs).length := by
  have h := congrArg List.length (lexeme_taken_append c cs)
  have hpos := List.length_pos_iff.mpr (lexeme_taken_ne_nil c cs)
  rw [List.length_append] at h
  omega

/-- A word is a name or a keyword. -/
theorem ofWord_cases (word : String) :
    Kind.ofWord word = .ident ∨ Kind.ofWord word ∈ Kind.keywords := by
  rw [Kind.ofWord]
  cases hfind : Kind.keywords.find? (·.text == word) with
  | none => exact .inl rfl
  | some k => exact .inr (List.mem_of_find?_eq_some hfind)

theorem ofWord_ne_eof (word : String) : Kind.ofWord word ≠ .eof := by
  intro hk
  have hcases := ofWord_cases word
  rw [hk] at hcases
  exact absurd hcases (by decide)

theorem ofSymbol?_ne_eof (c : Char) : (Kind.ofSymbol? c).getD .illegal ≠ .eof := by
  unfold Kind.ofSymbol?
  split <;> decide

theorem lexeme_kind_ne_eof (c : Char) (cs : List Char) : (lexeme c cs).kind ≠ .eof := by
  rw [lexeme]
  split
  · exact fun hk => by cases hk
  · split
    · exact ofWord_ne_eof _
    · split
      · dsimp only
        split
        · exact fun hk => by cases hk
        · exact fun hk => by cases hk
      · exact ofSymbol?_ne_eof c

/-! ### Characters that stand by themselves -/

theorem mem_numberSpan {pointSeen : Bool} {cs : List Char} {x : Char}
    (h : x ∈ (numberSpan pointSeen cs).1) : isBreak x = false := by
  induction cs generalizing pointSeen with
  | nil => exact absurd h List.not_mem_nil
  | cons c cs ih =>
    rw [numberSpan] at h
    split at h
    · next hc =>
      rcases List.mem_cons.mp h with rfl | h
      · rcases Bool.or_eq_true_iff.mp hc with hdigit | hline
        · simp [isBreak, isWordChar, hdigit]
        · rw [eq_of_beq hline]
          decide
      · exact ih h
    · split at h
      · next hc =>
        rcases List.mem_cons.mp h with rfl | h
        · rw [eq_of_beq (Bool.and_eq_true_iff.mp hc).1]
          decide
        · exact ih h
      · exact absurd h List.not_mem_nil

/-- A character that ends words and numbers is taken by itself or not at all. -/
theorem eq_of_mem_taken {d : Char} (hd : isBreak d = true) {c : Char} {cs : List Char}
    (h : d ∈ (lexeme c cs).taken) : c = d := by
  rw [lexeme] at h
  split at h
  · exact (List.mem_singleton.mp h).symm
  · split at h
    · have hword := List.all_eq_true.mp List.all_takeWhile d h
      rw [((isBreak_iff d).mp hd).1] at hword
      cases hword
    · split at h
      · have hrun : d ∈ (numberSpan false (c :: cs)).1 := by
          dsimp only at h
          split at h <;> exact h
        rw [mem_numberSpan hrun] at hd
        cases hd
      · exact (List.mem_singleton.mp h).symm

theorem mem_taken (c : Char) (cs : List Char) : c ∈ (lexeme c cs).taken := by
  have happend := lexeme_taken_append c cs
  cases htaken : (lexeme c cs).taken with
  | nil => exact absurd htaken (lexeme_taken_ne_nil c cs)
  | cons x xs =>
    rw [htaken] at happend
    obtain ⟨rfl, -⟩ := List.cons.inj happend
    exact List.mem_cons_self

theorem ofWord_ne {k : Kind} (hk : k ∉ Kind.ident :: Kind.keywords) (word : String) :
    Kind.ofWord word ≠ k := by
  rintro rfl
  exact hk (List.mem_cons.mpr (ofWord_cases word))

/-- Only a line end makes a token of its kind. -/
theorem lexeme_kind_newline (c : Char) (cs : List Char) :
    (lexeme c cs).kind = .newline ↔ c = '\n' := by
  rw [lexeme]
  split
  · next hc => exact iff_of_true rfl hc
  · next hc =>
    refine iff_of_false ?_ hc
    split
    · exact ofWord_ne (by decide) _
    · split
      · dsimp only
        split <;> simp
      · dsimp only
        unfold Kind.ofSymbol?
        split <;> simp

/-- Only an equals sign makes a token of its kind. -/
theorem lexeme_kind_assign (c : Char) (cs : List Char) :
    (lexeme c cs).kind = .assign ↔ c = '=' := by
  rw [lexeme]
  split
  · next hc => exact iff_of_false (by simp) (by rw [hc]; decide)
  · split
    · next hletter =>
      refine iff_of_false (ofWord_ne (by decide) _) ?_
      rintro rfl
      exact absurd hletter (by decide)
    · split
      · next hdigit =>
        refine iff_of_false ?_ ?_
        · dsimp only
          split <;> simp
        · rintro rfl
          exact absurd hdigit (by decide)
      · dsimp only
        unfold Kind.ofSymbol?
        split <;> simp_all

/-! ### Places -/

theorem afterAll_append (p : Place) (as bs : List Char) :
    p.afterAll (as ++ bs) = (p.afterAll as).afterAll bs :=
  List.foldl_append

/-- A map of places that keeps them in line with the characters. -/
def Steady (g : Place → Place) : Prop := ∀ p c, g (p.after c) = (g p).after c

theorem Steady.afterAll {g : Place → Place} (hg : Steady g) (p : Place) (cs : List Char) :
    g (p.afterAll cs) = (g p).afterAll cs := by
  induction cs generalizing p with
  | nil => rfl
  | cons c cs ih => exact (ih (p.after c)).trans (congrArg (·.afterAll cs) (hg p c))

/-- The place in another file, some lines further down. -/
def Place.shift (file : String) (lines : Int) (p : Place) : Place :=
  ⟨file, p.line + lines, p.column⟩

theorem steady_shift (file : String) (lines : Int) : Steady (Place.shift file lines) := by
  intro p c
  rw [Place.after, Place.after]
  split
  · simp only [Place.shift, Place.mk.injEq, true_and, and_true]
    omega
  · rfl

/-! ### All tokens -/

/-- The tokens of some characters that start at `p`. -/
def scan (p : Place) : List Char → Except ScanError (List Token)
  | [] => .ok []
  | c :: cs =>
    if isGap c then scan (p.after c) cs
    else if (lexeme c cs).wellFormed then
      (scan (p.afterAll (lexeme c cs).taken) (lexeme c cs).rest).map
        (⟨(lexeme c cs).kind, (lexeme c cs).text, p⟩ :: ·)
    else .error ⟨.secondPoint, ⟨(lexeme c cs).kind, (lexeme c cs).text, p⟩⟩
termination_by cs => cs.length
decreasing_by
  · exact Nat.lt_succ_self _
  · exact lexeme_rest_length c cs

theorem scan_nil (p : Place) : scan p [] = .ok [] := by
  rw [scan]

theorem scan_gap (p : Place) {c : Char} (hc : isGap c = true) (cs : List Char) :
    scan p (c :: cs) = scan (p.after c) cs := by
  rw [scan, if_pos hc]

theorem scan_lexeme (p : Place) {c : Char} (hc : isGap c = false) (cs : List Char) :
    scan p (c :: cs) =
      if (lexeme c cs).wellFormed then
        (scan (p.afterAll (lexeme c cs).taken) (lexeme c cs).rest).map
          (⟨(lexeme c cs).kind, (lexeme c cs).text, p⟩ :: ·)
      else .error ⟨.secondPoint, ⟨(lexeme c cs).kind, (lexeme c cs).text, p⟩⟩ := by
  rw [scan, if_neg (Bool.not_eq_true _ ▸ hc)]

/-- What a gap leaves starts with a character that is no gap. -/
theorem isGap_of_dropWhile_eq_cons {cs : List Char} {c : Char} {rest : List Char}
    (h : cs.dropWhile isGap = c :: rest) : isGap c = false := by
  have hhead := List.head?_dropWhile_not isGap cs
  rw [h] at hhead
  simpa using hhead

theorem scan_skipGap (p : Place) (cs : List Char) :
    scan p cs = scan (p.afterAll (cs.takeWhile isGap)) (cs.dropWhile isGap) := by
  induction cs generalizing p with
  | nil => rfl
  | cons c cs ih =>
    rw [List.takeWhile_cons, List.dropWhile_cons]
    cases hc : isGap c with
    | true => exact (scan_gap p hc cs).trans (ih (p.after c))
    | false => rfl

/-- In front of a character that ends words and numbers the scan can be cut. -/
theorem scan_append {d : Char} (hd : isBreak d = true) (b : List Char) (p : Place)
    (a : List Char) :
    scan p (a ++ d :: b)
      = (scan p a).bind fun ts => (scan (p.afterAll a) (d :: b)).map (ts ++ ·) := by
  fun_induction scan p a with
  | case1 p =>
    rw [List.nil_append]
    show scan p (d :: b) = (scan p (d :: b)).map _
    cases scan p (d :: b) <;> rfl
  | case2 p c cs hc ih =>
    rw [List.cons_append, scan_gap p hc, ih]
    rfl
  | case3 p c cs hc hwf ih =>
    -- A lexeme of the first part is not longer for what follows.
    have hplace : p.afterAll (c :: cs)
        = (p.afterAll (lexeme c cs).taken).afterAll (lexeme c cs).rest := by
      rw [← afterAll_append, lexeme_taken_append]
    rw [List.cons_append, scan_lexeme p (by simpa using hc), lexeme_append hd, if_pos hwf, ih,
      hplace]
    cases scan (p.afterAll (lexeme c cs).taken) (lexeme c cs).rest with
    | error e => rfl
    | ok ts =>
      cases scan ((p.afterAll (lexeme c cs).taken).afterAll (lexeme c cs).rest) (d :: b) <;>
        simp [Except.bind, Except.map]
  | case4 p c cs hc hwf =>
    -- A lexeme that is malformed stays so.
    rw [List.cons_append, scan_lexeme p (by simpa using hc), lexeme_append hd, if_neg hwf]
    rfl

/-- The failure with its token at another place. -/
def ScanError.relocate (g : Place → Place) (e : ScanError) : ScanError :=
  { e with token := e.token.relocate g }

/-- From another place on, the same tokens stand at other places. -/
theorem scan_relocate {g : Place → Place} (hg : Steady g) (p : Place) (cs : List Char) :
    scan (g p) cs = match scan p cs with
      | .ok ts => .ok (ts.map (Token.relocate g))
      | .error e => .error (e.relocate g) := by
  fun_induction scan p cs with
  | case1 p => rw [scan_nil]; rfl
  | case2 p c cs hc ih => rw [scan_gap _ hc, ← hg, ih]
  | case3 p c cs hc hwf ih =>
    rw [scan_lexeme _ (by simpa using hc), if_pos hwf, ← hg.afterAll, ih]
    cases scan (p.afterAll (lexeme c cs).taken) (lexeme c cs).rest <;> rfl
  | case4 p c cs hc hwf =>
    rw [scan_lexeme _ (by simpa using hc), if_neg hwf]
    rfl

/-- What holds of every lexeme that is not malformed holds of every token of a scan.  The token
stands where the first character of the lexeme does, which is no gap. -/
theorem forall_of_scan {P : Token → Prop} {p : Place} {cs : List Char}
    (hlexeme : ∀ front c rest, cs = front ++ c :: rest → isGap c = false →
      (lexeme c rest).wellFormed = true →
      P ⟨(lexeme c rest).kind, (lexeme c rest).text, p.afterAll front⟩)
    {ts : List Token} (h : scan p cs = .ok ts) : ∀ t ∈ ts, P t := by
  fun_induction scan p cs generalizing ts with
  | case1 p =>
    obtain rfl := Except.ok.inj h
    simp
  | case2 p c cs hc ih =>
    refine ih (fun front d rest hsplit => ?_) h
    exact hlexeme (c :: front) d rest (congrArg (c :: ·) hsplit)
  | case3 p c cs hc hwf ih =>
    cases hrest : scan (p.afterAll (lexeme c cs).taken) (lexeme c cs).rest with
    | error e =>
      rw [hrest] at h
      cases h
    | ok us =>
      rw [hrest] at h
      obtain rfl := Except.ok.inj h
      intro t ht
      rcases List.mem_cons.mp ht with rfl | ht
      · exact hlexeme [] c cs rfl (by simpa using hc) hwf
      · refine ih (fun front d rest hsplit => ?_) hrest t ht
        rw [← afterAll_append]
        refine hlexeme ((lexeme c cs).taken ++ front) d rest ?_
        rw [List.append_assoc, ← hsplit, lexeme_taken_append]
  | case4 p c cs hc hwf => cases h

theorem kind_ne_eof_of_scan {p : Place} {cs : List Char} {ts : List Token}
    (h : scan p cs = .ok ts) : ∀ t ∈ ts, t.kind ≠ .eof :=
  forall_of_scan (fun _ c rest _ _ _ => lexeme_kind_ne_eof c rest) h

/-- The scanner's bound is enough: it gives all tokens and then the end. -/
theorem tokens_eq_scan {bound : Nat} {s : Scanner} (hbound : s.rest.length ≤ bound)
    (hended : s.ended = false) :
    s.tokens bound
      = (scan s.place s.rest).map (· ++ [⟨.eof, "", s.place.afterAll s.rest⟩]) := by
  induction bound generalizing s with
  | zero =>
    have hnil : s.rest = [] := List.length_eq_zero_iff.mp (by omega)
    rw [hnil, scan_nil]
    rfl
  | succ bound ih =>
    have hsplit : s.rest.takeWhile isGap ++ s.rest.dropWhile isGap = s.rest :=
      List.takeWhile_append_dropWhile
    have hlen := (List.dropWhile_suffix (l := s.rest) isGap).length_le
    rw [Scanner.tokens, scan_skipGap, Scanner.next]
    simp only [Scanner.skipGap]
    cases hrest : s.rest.dropWhile isGap with
    | nil =>
      -- Nothing but a gap is left, and the end stands behind it.
      rw [hrest, List.append_nil] at hsplit
      simp only [hended, Bool.false_eq_true, if_false, if_true, hsplit, scan_nil]
      rfl
    | cons c cs =>
      have hc := isGap_of_dropWhile_eq_cons hrest
      have hplace : s.place.afterAll s.rest
          = ((s.place.afterAll (s.rest.takeWhile isGap)).afterAll (lexeme c cs).taken).afterAll
              (lexeme c cs).rest := by
        rw [← afterAll_append, lexeme_taken_append, ← afterAll_append, ← hrest, hsplit]
      -- A lexeme takes a character at least, which is what the bound counts.
      have hshort := lexeme_rest_length c cs
      rw [hrest] at hlen
      rw [scan_lexeme _ hc]
      cases hwf : (lexeme c cs).wellFormed with
      | false =>
        simp only [hwf, Bool.false_eq_true, if_false]
        rfl
      | true =>
        have ih' := ih (s := ⟨(s.place.afterAll (s.rest.takeWhile isGap)).afterAll
          (lexeme c cs).taken, (lexeme c cs).rest, s.ended⟩) (by dsimp only; omega) hended
        simp only [hwf, if_true, if_neg (lexeme_kind_ne_eof c cs), ih', hplace]
        cases scan ((s.place.afterAll (s.rest.takeWhile isGap)).afterAll (lexeme c cs).taken)
          (lexeme c cs).rest <;> rfl

/-- The tokens of a source are its scan and the end. -/
theorem tokenize_eq (file source : String) :
    tokenize file source = (scan ⟨file, 1, 1⟩ source.toList).map
      (· ++ [⟨.eof, "", Place.afterAll ⟨file, 1, 1⟩ source.toList⟩]) :=
  tokens_eq_scan (Nat.le_refl _) rfl

theorem exists_scan_of_tokenize {file source : String} {ts : List Token}
    (h : tokenize file source = .ok ts) :
    ∃ us, scan ⟨file, 1, 1⟩ source.toList = .ok us ∧
      ts = us ++ [⟨.eof, "", Place.afterAll ⟨file, 1, 1⟩ source.toList⟩] := by
  rw [tokenize_eq] at h
  cases hscan : scan ⟨file, 1, 1⟩ source.toList with
  | error e =>
    rw [hscan] at h
    cases h
  | ok us =>
    rw [hscan] at h
    exact ⟨us, rfl, (Except.ok.inj h).symm⟩

end ListCalc
