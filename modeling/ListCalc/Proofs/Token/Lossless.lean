/-
The scanner loses nothing.

A source that is scanned falls into pieces, one for each token: a gap, which is
dropped, and behind it the characters that the token stands for.  So a token tells
exactly where its characters are and, unless it is a number, what they are.

* `Piece` — a gap and the characters of a token, and `Piece.Exact` for a token that
  fits them;
* `exists_tiles_of_scan` — the tokens of a scan cover what they were scanned from;
* `Place.behind` — the place behind some characters, told by counting them, which is
  where the scanner gets by going from one character to the next
  (`afterAll_start`);
* `tokenize_pieces` — a source is its pieces, one after the other, with a gap at the
  end.
-/
import Mathlib.Data.List.Induction
import ListCalc.Proofs.Token.Scan

namespace ListCalc

/-! ### Places by counting -/

/-- The place behind the characters that a source starts with: one line further down for every
line end among them, and one column to the right for every character behind the last of these. -/
def Place.behind (file : String) (front : List Char) : Place :=
  ⟨file, 1 + front.count '\n', 1 + (front.reverse.takeWhile (· != '\n')).length⟩

theorem behind_append_singleton (file : String) (front : List Char) (c : Char) :
    Place.behind file (front ++ [c]) = (Place.behind file front).after c := by
  by_cases hc : c = '\n'
  · simp [Place.behind, Place.after, hc, Int.add_assoc]
  · simp [Place.behind, Place.after, hc, Int.add_assoc]

/-- Going from one character to the next, one gets to the place that counting tells. -/
theorem afterAll_start (file : String) (front : List Char) :
    Place.afterAll ⟨file, 1, 1⟩ front = Place.behind file front := by
  -- A character at the end of the front is the last one to be passed.
  induction front using List.reverseRecOn with
  | nil => rfl
  | append_singleton front c ih =>
    rw [afterAll_append, ih, behind_append_singleton]
    rfl

/-! ### Pieces -/

/-- A gap and, behind it, the characters of a token. -/
structure Piece where
  gap : List Char
  span : List Char
  token : Token

namespace Piece

/-- All characters of a piece. -/
def chars (x : Piece) : List Char := x.gap ++ x.span

/-- The token of the piece is that of its characters.  A line end is a token by itself and no other
token has one; the text of a number is in canonical form, and every other text is as it stands. -/
structure Exact (x : Piece) : Prop where
  gap_blank : ∀ c ∈ x.gap, isGap c = true
  span_ne_nil : x.span ≠ []
  kind_ne_eof : x.token.kind ≠ .eof
  newline : '\n' ∈ x.span ∨ x.token.kind = .newline → x.span = ['\n'] ∧ x.token.kind = .newline
  text : x.token.text = String.ofList
    (if x.token.kind = .number then canonicalNumber x.span else x.span)

end Piece

/-- The characters `cs`, of which the first stands at `p`, are some pieces and a gap behind them. -/
structure Tiles (p : Place) (cs : List Char) (pieces : List Piece) (rest : List Char) : Prop where
  whole : cs = pieces.flatMap Piece.chars ++ rest
  rest_blank : ∀ c ∈ rest, isGap c = true
  exact : ∀ x ∈ pieces, x.Exact
  place : ∀ before x after, pieces = before ++ x :: after →
    x.token.place = p.afterAll (before.flatMap Piece.chars ++ x.gap)

theorem tiles_nil (p : Place) {cs : List Char} (h : ∀ c ∈ cs, isGap c = true) :
    Tiles p cs [] cs := by
  refine ⟨rfl, h, ?_, ?_⟩
  · intro x hx
    exact absurd hx List.not_mem_nil
  · intro before x after hsplit
    exact absurd hsplit.symm (by simp)

/-- In front of pieces may stand one more. -/
theorem Tiles.cons {p : Place} {x : Piece} {cs : List Char} {pieces : List Piece}
    {rest : List Char} (h : Tiles (p.afterAll x.chars) cs pieces rest) (hx : x.Exact)
    (hplace : x.token.place = p.afterAll x.gap) : Tiles p (x.chars ++ cs) (x :: pieces) rest := by
  refine ⟨?_, h.rest_blank, List.forall_mem_cons.mpr ⟨hx, h.exact⟩, ?_⟩
  · rw [h.whole, List.flatMap_cons, List.append_assoc]
  · intro before y after hsplit
    rcases List.cons_eq_append_iff.mp hsplit with ⟨rfl, hy⟩ | ⟨before', rfl, hpieces⟩
    · obtain ⟨rfl, -⟩ := List.cons.inj hy
      exact hplace
    · rw [h.place before' y after hpieces, List.flatMap_cons, List.append_assoc,
        afterAll_append p x.chars]

/-! ### Lexemes -/

/-- A lexeme that is not malformed has the text that its characters tell. -/
theorem lexeme_text {c : Char} {cs : List Char} (hwf : (lexeme c cs).wellFormed = true) :
    (lexeme c cs).text = String.ofList
      (if (lexeme c cs).kind = .number then canonicalNumber (lexeme c cs).taken
        else (lexeme c cs).taken) := by
  rw [lexeme] at hwf ⊢
  split
  · next hc => rw [hc]; rfl
  · next hc =>
    rw [if_neg hc] at hwf
    split
    · rw [if_neg (ofWord_ne (by decide) _)]
    · next hletter =>
      rw [if_neg hletter] at hwf
      split
      · next hnumber =>
        rw [if_pos hnumber] at hwf
        dsimp only at hwf ⊢
        split
        · next hpoint =>
          rw [if_pos hpoint] at hwf
          cases hwf
        · rfl
      · have hkind : (Kind.ofSymbol? c).getD .illegal ≠ .number := by
          unfold Kind.ofSymbol?
          split <;> decide
        rw [if_neg hkind]
        rfl

/-- A lexeme behind a gap is a piece. -/
theorem exact_lexeme {gap : List Char} (hgap : ∀ c ∈ gap, isGap c = true) {c : Char}
    {cs : List Char} (hwf : (lexeme c cs).wellFormed = true) (p : Place) :
    Piece.Exact ⟨gap, (lexeme c cs).taken, (lexeme c cs).kind, (lexeme c cs).text, p⟩ := by
  refine ⟨hgap, lexeme_taken_ne_nil c cs, lexeme_kind_ne_eof c cs, ?_, lexeme_text hwf⟩
  intro hline
  -- Either way the lexeme starts with the line end, and then it is nothing else.
  have hc : c = '\n' := by
    rcases hline with hmem | hkind
    · exact eq_of_mem_taken (by decide) hmem
    · exact (lexeme_kind_newline c cs).mp hkind
  subst hc
  exact ⟨rfl, rfl⟩

/-- **The tokens of a scan cover the characters**, but for the gaps between them. -/
theorem exists_tiles_of_scan {p : Place} {cs : List Char} {ts : List Token}
    (h : scan p cs = .ok ts) :
    ∃ pieces rest, ts = pieces.map Piece.token ∧ Tiles p cs pieces rest := by
  -- The induction is on the number of characters: a lexeme leaves fewer of them.
  induction hn : cs.length using Nat.strongRecOn generalizing p cs ts with
  | _ n ih =>
    have hgap : ∀ c ∈ cs.takeWhile isGap, isGap c = true := by
      intro c hc
      exact List.all_eq_true.mp List.all_takeWhile c hc
    have hsplit : cs.takeWhile isGap ++ cs.dropWhile isGap = cs := List.takeWhile_append_dropWhile
    rw [scan_skipGap] at h
    cases hdrop : cs.dropWhile isGap with
    | nil =>
      rw [hdrop, scan_nil] at h
      rw [hdrop, List.append_nil] at hsplit
      rw [hsplit] at hgap
      exact ⟨[], cs, (Except.ok.inj h).symm, tiles_nil p hgap⟩
    | cons d ds =>
      have hd := isGap_of_dropWhile_eq_cons hdrop
      rw [hdrop, scan_lexeme _ hd] at h
      by_cases hwf : (lexeme d ds).wellFormed = true
      · rw [if_pos hwf] at h
        cases hrest : scan ((p.afterAll (cs.takeWhile isGap)).afterAll (lexeme d ds).taken)
            (lexeme d ds).rest with
        | error e =>
          rw [hrest] at h
          cases h
        | ok us =>
          rw [hrest] at h
          obtain rfl := Except.ok.inj h
          have hshort : (lexeme d ds).rest.length < n := by
            have hlexeme := lexeme_rest_length d ds
            have hlen := (List.dropWhile_suffix (l := cs) isGap).length_le
            rw [hdrop] at hlen
            omega
          rw [← afterAll_append] at hrest
          obtain ⟨pieces, rest, rfl, htiles⟩ := ih _ hshort hrest rfl
          have hexact := exact_lexeme hgap hwf (p.afterAll (cs.takeWhile isGap))
          refine ⟨⟨cs.takeWhile isGap, (lexeme d ds).taken, (lexeme d ds).kind, (lexeme d ds).text,
            p.afterAll (cs.takeWhile isGap)⟩ :: pieces, rest, rfl, ?_⟩
          have hcons := htiles.cons hexact rfl
          rw [Piece.chars, List.append_assoc, lexeme_taken_append, ← hdrop, hsplit] at hcons
          exact hcons
      · rw [if_neg hwf] at h
        cases h

/-! ### Sources -/

/-- **A source is its tokens and the gaps between them.**  If a source is scanned, its characters
are those of some pieces, one after the other, and a gap at the end.  The tokens are those of the
pieces and the end of the source, which comes last and only once.  Each token is that of its
characters, and its place is the place behind all characters in front of these. -/
theorem tokenize_pieces {file source : String} {ts : List Token}
    (h : tokenize file source = .ok ts) :
    ∃ (pieces : List Piece) (rest : List Char),
      ts = pieces.map Piece.token ++ [⟨.eof, "", Place.behind file source.toList⟩] ∧
      source.toList = pieces.flatMap Piece.chars ++ rest ∧
      (∀ c ∈ rest, isGap c = true) ∧
      (∀ x ∈ pieces, x.Exact) ∧
      ∀ before x after, pieces = before ++ x :: after →
        x.token.place = Place.behind file (before.flatMap Piece.chars ++ x.gap) := by
  rw [tokenize_eq] at h
  cases hscan : scan ⟨file, 1, 1⟩ source.toList with
  | error e =>
    rw [hscan] at h
    cases h
  | ok us =>
    rw [hscan, afterAll_start] at h
    obtain rfl := Except.ok.inj h
    obtain ⟨pieces, rest, rfl, htiles⟩ := exists_tiles_of_scan hscan
    refine ⟨pieces, rest, rfl, htiles.whole, htiles.rest_blank, htiles.exact, ?_⟩
    intro before x after hsplit
    rw [htiles.place before x after hsplit, afterAll_start]

/-- A list over two lines, with a gap in front of its second number, a character that the language
does not use, and a gap at the end. -/
theorem tokenize_pieces_lines :
    (tokenize "memo" "[x,\n\t1_0.]  é ").toOption.map
        (·.map fun t => (t.text, t.place.line, t.place.column))
      = some [("[", 1, 1), ("x", 1, 2), (",", 1, 3), ("\n", 1, 4), ("10.0", 2, 2), ("]", 2, 6),
          ("é", 2, 9), ("", 2, 11)] ∧
    ∃ (pieces : List Piece) (rest : List Char),
      "[x,\n\t1_0.]  é ".toList = pieces.flatMap Piece.chars ++ rest ∧ pieces.length = 7 ∧
        ∀ x ∈ pieces, x.Exact := by
  have htokens : (tokenize "memo" "[x,\n\t1_0.]  é ").toOption.map
      (·.map fun t => (t.text, t.place.line, t.place.column))
      = some [("[", 1, 1), ("x", 1, 2), (",", 1, 3), ("\n", 1, 4), ("10.0", 2, 2), ("]", 2, 6),
          ("é", 2, 9), ("", 2, 11)] := by decide +kernel
  refine ⟨htokens, ?_⟩
  cases h : tokenize "memo" "[x,\n\t1_0.]  é " with
  | error e =>
    rw [h] at htokens
    cases htokens
  | ok ts =>
    obtain ⟨pieces, rest, rfl, hwhole, -, hexact, -⟩ := tokenize_pieces h
    rw [h] at htokens
    have hlen := congrArg List.length (Option.some.inj htokens)
    simp only [List.length_map, List.length_append, List.length_cons, List.length_nil] at hlen
    exact ⟨pieces, rest, hwhole, by omega, hexact⟩

end ListCalc
