/-
Texts of tokens are tokens.

The text of a token is scanned to a token with the same kind and text, in front of
whatever ends words and numbers: a word or a number has been taken as a whole, and
the canonical form of a number is its own canonical form.  Gaps end words and numbers,
so the texts of all tokens of a source can be written one after the other with any
gaps between them.

* `Spaced` — texts with gaps between neighbours;
* `spells_lexeme` — the text of a lexeme is scanned to the token of the lexeme;
* `tokenize_spaced` — spaced texts of tokens have the same tokens, places apart.
-/
import ListCalc.Proofs.Places
import ListCalc.Proofs.Spelling.Scan
import Mathlib.Data.List.Basic

namespace ListCalc

open Token

/-- The characters are the texts, one after the other, with a gap between any two neighbours. -/
inductive Spaced : List String → List Char → Prop where
  | none : Spaced [] []
  | one (text : String) : Spaced [text] text.toList
  | cons (text : String) {gap : List Char} (hne : gap ≠ []) (hgap : ∀ c ∈ gap, isGap c = true)
      {next : String} {texts : List String} {cs : List Char} (h : Spaced (next :: texts) cs) :
      Spaced (text :: next :: texts) (text.toList ++ gap ++ cs)

/-! ### Gaps -/

theorem isBreak_of_isGap {c : Char} (h : isGap c = true) : isBreak c = true := by
  have hletter : isLetter c = false := by
    refine Bool.eq_false_iff.mpr fun hc => ?_
    rw [isGap_of_isLetter hc] at h
    cases h
  have hdigit : isDigit c = false := by
    refine Bool.eq_false_iff.mpr fun hc => ?_
    rw [isGap_of_isDigit hc] at h
    cases h
  refine (isBreak_iff c).mpr ⟨by simp [isWordChar, hletter, hdigit], ?_⟩
  rintro rfl
  exact absurd h (by decide)

section

variable {gap b : List Char} {us : List Token}

theorem scans_gap (hgap : ∀ c ∈ gap, isGap c = true) (h : Scans b us) : Scans (gap ++ b) us := by
  induction gap with
  | nil => exact h
  | cons c gap ih =>
    obtain ⟨hc, hgap⟩ := List.forall_mem_cons.mp hgap
    intro p
    rw [List.cons_append, scan_gap p hc]
    exact ih hgap _

theorem breaks_gap (hne : gap ≠ []) (hgap : ∀ c ∈ gap, isGap c = true) (b : List Char) :
    Breaks (gap ++ b) := by
  obtain ⟨c, gap, rfl⟩ := List.exists_cons_of_ne_nil hne
  exact breaks_cons (isBreak_of_isGap (hgap c List.mem_cons_self)) _

end

/-! ### Lexemes -/

/-- **The text of a lexeme that is not malformed is scanned to the token of the lexeme.** -/
theorem spells_lexeme {c : Char} {cs : List Char} (hc : isGap c = false)
    (hwf : (lexeme c cs).wellFormed = true) :
    Spells (lexeme c cs).text.toList [⟨(lexeme c cs).kind, (lexeme c cs).text, default⟩] := by
  rw [lexeme] at hwf ⊢
  split
  · intro b us _ hscans
    have htext : "\n".toList = ['\n'] := by decide
    dsimp only
    rw [htext]
    exact scans_newline hscans
  · next hline =>
    rw [if_neg hline] at hwf
    split
    · next hletter => exact spells_word (isWord_takeWhile hletter cs)
    · next hletter =>
      rw [if_neg hletter] at hwf
      split
      · next hnumber =>
        rw [if_pos hnumber] at hwf
        by_cases hpoint : (numberSpan false (c :: cs)).2.head? = some '.'
        · simp only [if_pos hpoint] at hwf
          cases hwf
        · simp only [if_neg hpoint]
          exact spells_numeral (isNumeral_canonicalNumber hnumber cs)
      · next hnumber =>
        -- What is left stands by itself, whether or not the language uses it.
        have hsymbol : isSymbol c = true := by grind [isSymbol]
        intro b us _ hscans
        have htext : c.toString.toList = [c] := by simp
        dsimp only
        rw [htext]
        exact scans_symbol hsymbol hscans

theorem spells_of_scan {p : Place} {cs : List Char} {ts : List Token} (h : scan p cs = .ok ts) :
    ∀ t ∈ ts, Spells t.text.toList [t.relocate fun _ => default] :=
  forall_of_scan (fun _ _ _ _ hc hwf => spells_lexeme hc hwf) h

/-- Texts that are scanned to their tokens are so with gaps between them. -/
theorem scans_spaced {ts : List Token}
    (hts : ∀ t ∈ ts, Spells t.text.toList [t.relocate fun _ => default]) {cs : List Char}
    (h : Spaced (ts.map Token.text) cs) : Scans cs (ts.map (Token.relocate fun _ => default)) := by
  generalize htexts : ts.map Token.text = texts at h
  induction h generalizing ts with
  | none =>
    obtain rfl := List.map_eq_nil_iff.mp htexts
    exact scans_nil
  | one text =>
    obtain ⟨t, rfl, rfl⟩ := List.map_eq_singleton_iff.mp htexts
    have := hts t List.mem_cons_self [] [] breaks_nil scans_nil
    simpa using this
  | cons text hne hgap _ ih =>
    obtain ⟨t, ts, rfl, rfl, htail⟩ := List.map_eq_cons_iff.mp htexts
    obtain ⟨ht, hts⟩ := List.forall_mem_cons.mp hts
    rw [List.append_assoc]
    exact ht _ _ (breaks_gap hne hgap _) (scans_gap hgap (ih hts htail))

/-! ### Sources -/

theorem spelling_relocate (g : Place → Place) (t : Token) : (t.relocate g).spelling = t.spelling :=
  rfl

/-- **The texts of the tokens of a source, with gaps between neighbours, have the same tokens**,
apart from places and from the file. -/
theorem tokenize_spaced {file source : String} {ts : List Token}
    (h : tokenize file source = .ok ts) {text : String}
    (htext : Spaced ((ts.filter (·.kind ≠ .eof)).map Token.text) text.toList) (label : String) :
    ∃ us, tokenize label text = .ok us ∧ us.map Token.spelling = ts.map Token.spelling := by
  obtain ⟨vs, hscan, rfl⟩ := exists_scan_of_tokenize h
  -- The end is the only token of its kind.
  have hfilter : vs.filter (·.kind ≠ .eof) = vs :=
    List.filter_eq_self.mpr (by simpa using kind_ne_eof_of_scan hscan)
  rw [List.filter_append, hfilter, List.filter_cons_of_neg (by simp), List.filter_nil,
    List.append_nil] at htext
  obtain ⟨us, hus, hmap⟩ := scans_spaced (spells_of_scan hscan) htext ⟨label, 1, 1⟩
  refine ⟨us ++ [⟨.eof, "", Place.afterAll ⟨label, 1, 1⟩ text.toList⟩], ?_, ?_⟩
  · rw [tokenize_eq, hus]
    rfl
  · have hspelling := congrArg (List.map Token.spelling) hmap
    simp only [List.map_map, Function.comp_def, spelling_relocate] at hspelling
    rw [List.map_append, List.map_append, hspelling]
    rfl

/-- A separator and a point are swallowed by numbers, a letter and a character that the language
does not use stand right behind them, and there is a line end. -/
theorem tokenize_spaced_mixed :
    ∃ ts us, tokenize "memo" "2_x.§\n" = .ok ts ∧
      Spaced ((ts.filter (·.kind ≠ .eof)).map Token.text) "2.0\tx  0.0 § \n".toList ∧
      tokenize "copy" "2.0\tx  0.0 § \n" = .ok us ∧
      us.map Token.spelling = ts.map Token.spelling := by
  have hscan : tokenize "memo" "2_x.§\n" = .ok [⟨.number, "2.0", ⟨"memo", 1, 1⟩⟩,
      ⟨.ident, "x", ⟨"memo", 1, 3⟩⟩, ⟨.number, "0.0", ⟨"memo", 1, 4⟩⟩,
      ⟨.illegal, "§", ⟨"memo", 1, 5⟩⟩, ⟨.newline, "\n", ⟨"memo", 1, 6⟩⟩,
      ⟨.eof, "", ⟨"memo", 2, 1⟩⟩] := by decide +kernel
  have hspaced : Spaced ["2.0", "x", "0.0", "§", "\n"] "2.0\tx  0.0 § \n".toList := by
    have hsplit : "2.0\tx  0.0 § \n".toList = "2.0".toList ++ ['\t'] ++ ("x".toList ++ [' ', ' '] ++
        ("0.0".toList ++ [' '] ++ ("§".toList ++ [' '] ++ "\n".toList))) := by decide +kernel
    rw [hsplit]
    have hgap : ∀ gap : List Char, gap.all isGap = true → ∀ c ∈ gap, isGap c = true :=
      fun _ => List.all_eq_true.mp
    exact .cons _ (by simp) (hgap _ (by decide)) <| .cons _ (by simp) (hgap _ (by decide)) <|
      .cons _ (by simp) (hgap _ (by decide)) <| .cons _ (by simp) (hgap _ (by decide)) <| .one _
  obtain ⟨us, hus, hmap⟩ := tokenize_spaced hscan hspaced "copy"
  exact ⟨_, us, hscan, hspaced, hus, hmap⟩

end ListCalc
