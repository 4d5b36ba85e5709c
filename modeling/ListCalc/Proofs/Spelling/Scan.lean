/-
Texts scan to their spellings.

* `spells_render` — the text of a legible expression or statement scans to its
  spelling, in front of anything that ends words and numbers; so does the text of
  a program (`scans_render`);
* `proper_of_scan` — what a scan gives is proper: names, numbers and operators
  are what legible syntax needs.
-/
import ListCalc.Proofs.Spelling
import ListCalc.Proofs.Token.Scan

namespace ListCalc

open Token

/-! ### Characters -/

theorem isLetter_iff (c : Char) : isLetter c = true ↔
    (97 ≤ c.toNat ∧ c.toNat ≤ 122) ∨ (65 ≤ c.toNat ∧ c.toNat ≤ 90) ∨ c.toNat = 95 := by
  have hunderscore : c = '_' ↔ c.toNat = 95 := by
    rw [← Char.toNat_inj]
    rfl
  simp only [isLetter, Bool.or_eq_true, Bool.and_eq_true, decide_eq_true_eq, beq_iff_eq,
    Char.le_def, UInt32.le_iff_toNat_le, or_assoc, hunderscore]
  rfl

theorem isDigit_iff (c : Char) : isDigit c = true ↔ 48 ≤ c.toNat ∧ c.toNat ≤ 57 := by
  simp only [isDigit, Bool.and_eq_true, decide_eq_true_eq, Char.le_def, UInt32.le_iff_toNat_le]
  rfl

theorem isGap_of_isLetter {c : Char} (h : isLetter c = true) : isGap c = false := by
  rw [isLetter_iff] at h
  have hblank : Text.isBlank c = false := by
    simp only [Text.isBlank, Bool.or_eq_false_iff, Bool.and_eq_false_iff, decide_eq_false_iff_not,
      beq_eq_false_iff_ne]
    omega
  rw [isGap, hblank, Bool.and_false]

theorem isGap_of_isDigit {c : Char} (h : isDigit c = true) : isGap c = false := by
  rw [isDigit_iff] at h
  have hblank : Text.isBlank c = false := by
    simp only [Text.isBlank, Bool.or_eq_false_iff, Bool.and_eq_false_iff, decide_eq_false_iff_not,
      beq_eq_false_iff_ne]
    omega
  rw [isGap, hblank, Bool.and_false]

theorem isLetter_of_isDigit {c : Char} (h : isDigit c = true) : isLetter c = false := by
  rw [isDigit_iff] at h
  rw [← Bool.not_eq_true, isLetter_iff]
  omega

theorem ne_of_isDigit {c d : Char} (h : isDigit c = true) (hd : isDigit d = false) : c ≠ d := by
  rintro rfl
  exact absurd h (by simp [hd])

theorem ne_newline_of_isLetter {c : Char} (h : isLetter c = true) : c ≠ '\n' := by
  rintro rfl
  exact absurd h (by decide)

/-- A character that is a token by itself. -/
def isSymbol (c : Char) : Bool :=
  !isGap c && c != '\n' && !isLetter c && !isDigit c && c != '.'

theorem isSymbol_of_ofSymbol? {c : Char} {k : Kind} (h : Kind.ofSymbol? c = some k) :
    isSymbol c = true := by
  unfold Kind.ofSymbol? at h
  split at h <;> first | decide | cases h

/-! ### Scans without places -/

/-- The characters scan to the tokens, wherever they stand. -/
def Scans (cs : List Char) (ts : List Token) : Prop :=
  ∀ p, ∃ us, scan p cs = .ok us ∧ us.map (Token.relocate fun _ => default) = ts

/-- Words and numbers end in front of the characters. -/
def Breaks (cs : List Char) : Prop := ∀ c ∈ cs.head?, isBreak c = true

/-- In front of whatever ends words and numbers, the characters scan to the tokens. -/
def Spells (cs : List Char) (ts : List Token) : Prop :=
  ∀ b us, Breaks b → Scans b us → Scans (cs ++ b) (ts ++ us)

section

variable {b : List Char} {us : List Token}

theorem breaks_nil : Breaks [] := by simp [Breaks]

theorem breaks_cons {c : Char} (h : isBreak c = true) (cs : List Char) : Breaks (c :: cs) := by
  simpa [Breaks] using h

theorem scans_nil : Scans [] [] := fun p => ⟨[], scan_nil p, rfl⟩

theorem scans_space (h : Scans b us) : Scans (' ' :: b) us := by
  intro p
  rw [scan_gap p (show isGap ' ' = true by decide)]
  exact h _

/-- A lexeme is scanned, and then the rest. -/
theorem scans_lexeme {c : Char} {cs rest : List Char} {k : Kind} {text : String}
    {taken : List Char} (hc : isGap c = false) (hl : lexeme c cs = ⟨k, text, taken, rest, true⟩)
    (h : Scans rest us) : Scans (c :: cs) (⟨k, text, default⟩ :: us) := by
  intro p
  obtain ⟨vs, hvs, hmap⟩ := h (p.afterAll taken)
  refine ⟨⟨k, text, p⟩ :: vs, ?_, by rw [List.map_cons, hmap]; rfl⟩
  rw [scan_lexeme p hc, hl]
  simp only [if_true, hvs]
  rfl

theorem scans_newline (h : Scans b us) : Scans ('\n' :: b) (lineEnd :: us) :=
  scans_lexeme (by decide) rfl h

theorem scans_symbol {c : Char} (hc : isSymbol c = true) (h : Scans b us) :
    Scans (c :: b) (symbol c :: us) := by
  simp only [isSymbol, Bool.and_eq_true, Bool.not_eq_true', bne_iff_ne, and_assoc] at hc
  obtain ⟨hgap, hline, hletter, hdigit, hpoint⟩ := hc
  have hlexeme : lexeme c b = ⟨(Kind.ofSymbol? c).getD .illegal, c.toString, [c], b, true⟩ := by
    rw [lexeme, if_neg hline, if_neg (by simp [hletter]), if_neg (by simp [hdigit, hpoint])]
  exact scans_lexeme hgap hlexeme h

/-- A word ends at the first character that ends words. -/
theorem spells_word {w : String} (hw : IsWord w) : Spells w.toList [word w] := by
  intro b us hb h
  obtain ⟨c, cs, htext, hletter, hword⟩ := hw
  -- All of the word is taken, and nothing of what follows.
  have hall : ∀ d ∈ c :: cs, isWordChar d = true := by
    intro d hd
    rcases List.mem_cons.mp hd with rfl | hd
    · simp [isWordChar, hletter]
    · exact hword d hd
  have hend : b.takeWhile isWordChar = [] ∧ b.dropWhile isWordChar = b := by
    cases b with
    | nil => exact ⟨rfl, rfl⟩
    | cons d ds =>
      have hd := ((isBreak_iff d).mp (hb d rfl)).1
      simp [hd]
  have hlexeme : lexeme c (cs ++ b) = ⟨.ofWord w, w, c :: cs, b, true⟩ := by
    rw [lexeme, if_neg (ne_newline_of_isLetter hletter), if_pos hletter, ← List.cons_append,
      List.takeWhile_append_of_pos hall, List.dropWhile_append_of_pos hall, hend.1, hend.2,
      List.append_nil, ← htext]
    simp only [String.ofList_toList]
  rw [htext]
  exact scans_lexeme (isGap_of_isLetter hletter) hlexeme h

theorem spells_keyword (w : String)
    (hw : (w.toList.head?.any isLetter && w.toList.all isWordChar) = true) :
    Spells w.toList [word w] := by
  refine spells_word ?_
  rw [Bool.and_eq_true] at hw
  cases htext : w.toList with
  | nil =>
    rw [htext] at hw
    cases hw.1
  | cons c cs =>
    rw [htext, List.all_cons, Bool.and_eq_true, List.all_eq_true] at hw
    exact ⟨c, cs, htext, by simpa using hw.1, hw.2.2⟩

/-- A space behind some text. -/
theorem spells_spaced {cs : List Char} {ts : List Token} (h : Spells cs ts) (hb : Scans b us) :
    Scans (cs ++ ' ' :: b) (ts ++ us) :=
  h _ _ (breaks_cons (by decide) b) (scans_space hb)

/-! ### Numbers -/

theorem numberSpan_digits (pointSeen : Bool) {ds : List Char}
    (hds : ∀ d ∈ ds, isDigit d = true) (rest : List Char) :
    numberSpan pointSeen (ds ++ rest)
      = (ds ++ (numberSpan pointSeen rest).1, (numberSpan pointSeen rest).2) := by
  induction ds with
  | nil => rfl
  | cons d ds ih =>
    rw [List.cons_append, numberSpan, if_pos (by simp [hds d List.mem_cons_self]),
      ih fun e he => hds e (List.mem_cons_of_mem d he)]
    rfl

theorem numberSpan_point (cs : List Char) :
    numberSpan false ('.' :: cs) = ('.' :: (numberSpan true cs).1, (numberSpan true cs).2) := by
  rw [numberSpan, if_neg (by decide), if_pos (by decide)]

theorem numberSpan_of_breaks (pointSeen : Bool) (hb : Breaks b) :
    numberSpan pointSeen b = ([], b) := by
  cases b with
  | nil => rfl
  | cons c cs => exact numberSpan_append (hb c rfl) cs pointSeen []

theorem getLast?_ne_point (whole : List Char) {fraction : List Char} (hfraction : fraction ≠ [])
    (hdigits : ∀ d ∈ fraction, isDigit d = true) :
    (whole ++ '.' :: fraction).getLast? ≠ some '.' := by
  rw [List.getLast?_append, List.getLast?_cons, List.getLast?_eq_some_getLast hfraction]
  simpa using ne_of_isDigit (hdigits _ (List.getLast_mem hfraction)) (by decide)

theorem canonicalNumber_of_digits {run whole : List Char}
    (hrun : run.filter (· != '_') = whole) (hdigits : ∀ d ∈ whole, isDigit d = true) :
    canonicalNumber run = whole ++ ['.', '0'] := by
  have hpoint : '.' ∉ whole := fun hmem => absurd (hdigits '.' hmem) (by decide)
  have hhead : whole.head? ≠ some '.' := fun hhead => hpoint (List.mem_of_mem_head? hhead)
  rw [canonicalNumber, wholeDigits, hrun]
  simp [hhead, hpoint]

theorem canonicalNumber_of_point {run whole fraction : List Char}
    (hrun : run.filter (· != '_') = whole ++ '.' :: fraction)
    (hwhole : ∀ d ∈ whole, isDigit d = true) (hfraction : ∀ d ∈ fraction, isDigit d = true) :
    canonicalNumber run = (if whole = [] then ['0'] else whole) ++
      '.' :: (if fraction = [] then ['0'] else fraction) := by
  have hdigits : wholeDigits run = (if whole = [] then ['0'] else whole) ++ '.' :: fraction := by
    rw [wholeDigits, hrun]
    cases whole with
    | nil => rfl
    | cons d ds =>
      have hd : d ≠ '.' := ne_of_isDigit (hwhole d List.mem_cons_self) (by decide)
      simp [hd]
  rw [canonicalNumber, hdigits]
  -- A point at the end gets a zero behind it.
  by_cases hempty : fraction = []
  · simp [hempty]
  · have hlast := getLast?_ne_point (if whole = [] then ['0'] else whole) hempty hfraction
    simp only [if_neg hlast, if_neg hempty]
    exact if_neg (by simp)

/-- Digits are put in for a part that is missing. -/
theorem isDigit_of_mem_ite {ds : List Char} (hds : ∀ d ∈ ds, isDigit d = true) :
    ∀ d ∈ if ds = [] then ['0'] else ds, isDigit d = true := by
  split
  · exact isDigit_of_mem_zero
  · exact hds

/-- Between digits and a point there are no underscores to drop. -/
theorem filter_of_point {whole fraction : List Char} (hwhole : ∀ d ∈ whole, isDigit d = true)
    (hfraction : ∀ d ∈ fraction, isDigit d = true) :
    (whole ++ '.' :: fraction).filter (· != '_') = whole ++ '.' :: fraction := by
  rw [List.filter_eq_self]
  intro d hd
  rcases List.mem_append.mp hd with hd | hd
  · simpa using ne_of_isDigit (hwhole d hd) (by decide)
  · rcases List.mem_cons.mp hd with rfl | hd
    · rfl
    · simpa using ne_of_isDigit (hfraction d hd) (by decide)

/-- A number in canonical form is its own canonical form. -/
theorem canonicalNumber_of_isNumeral {text : String} (h : IsNumeral text) :
    canonicalNumber text.toList = text.toList := by
  obtain ⟨whole, fraction, htext, hwhole, hfraction, hdigits, hdigits'⟩ := h
  rw [htext, canonicalNumber_of_point (filter_of_point hdigits hdigits') hdigits hdigits',
    if_neg hwhole, if_neg hfraction]

/-- A number in canonical form ends at the first character that ends numbers. -/
theorem spells_numeral {text : String} (h : IsNumeral text) :
    Spells text.toList [numeral text] := by
  intro b us hb hscans
  have hcanonical := canonicalNumber_of_isNumeral h
  obtain ⟨whole, fraction, htext, hwhole, -, hdigits, hdigits'⟩ := h
  obtain ⟨d, ds, rfl⟩ := List.exists_cons_of_ne_nil hwhole
  have hd := hdigits d List.mem_cons_self
  have hfraction : numberSpan false ('.' :: fraction ++ b) = ('.' :: fraction, b) := by
    rw [List.cons_append, numberSpan_point, numberSpan_digits true hdigits',
      numberSpan_of_breaks true hb, List.append_nil]
  have hspan : numberSpan false (text.toList ++ b) = (text.toList, b) := by
    rw [htext, List.append_assoc, numberSpan_digits false hdigits, hfraction]
  -- What follows is no second point.
  have hrest : b.head? ≠ some '.' := by
    intro hpoint
    exact ((isBreak_iff '.').mp (hb '.' hpoint)).2 rfl
  have hlexeme : lexeme d (ds ++ '.' :: fraction ++ b)
      = ⟨.number, text, text.toList, b, true⟩ := by
    have hcons : d :: (ds ++ '.' :: fraction ++ b) = text.toList ++ b := by
      rw [htext]
      rfl
    rw [lexeme, if_neg (ne_of_isDigit hd (by decide)), if_neg (by simp [isLetter_of_isDigit hd]),
      if_pos (by simp [hd]), hcons, hspan]
    simp only [if_neg hrest, hcanonical, String.ofList_toList]
  rw [htext]
  exact scans_lexeme (isGap_of_isDigit hd) hlexeme hscans

/-! ### Sequences -/

theorem toList_intercalate_cons (sep text : String) (texts : List String) :
    (sep.intercalate (text :: texts)).toList
      = text.toList ++ texts.flatMap fun t => sep.toList ++ t.toList := by
  induction texts generalizing text with
  | nil => simp
  | cons t ts ih =>
    rw [String.intercalate_cons_cons, String.toList_append, String.toList_append, ih,
      List.flatMap_cons]
    simp

/-- Behind a text that others follow, words and numbers end. -/
theorem breaks_flatMap (sep : String) {c : Char} {cs : List Char} (hsep : sep.toList = c :: cs)
    (hc : isBreak c = true) (texts : List String) (hb : Breaks b) :
    Breaks (texts.flatMap (fun t => sep.toList ++ t.toList) ++ b) := by
  cases texts with
  | nil => exact hb
  | cons t ts =>
    rw [List.flatMap_cons, hsep]
    exact breaks_cons hc _

/-- Texts with commas between them. -/
theorem spells_commas {α : Type} {text : α → String} {spelling : α → List Token} {xs : List α}
    (h : ∀ x ∈ xs, Spells (text x).toList (spelling x)) :
    Spells (", ".intercalate (xs.map text)).toList (commas (xs.map spelling)) := by
  -- Behind the first text, each one has a comma and a space in front.
  have hmore : ∀ ys : List α, (∀ y ∈ ys, Spells (text y).toList (spelling y)) →
      Spells ((ys.map text).flatMap fun t => ", ".toList ++ t.toList)
        ((ys.map spelling).flatMap (symbol ',' :: ·)) := by
    intro ys hys b us hb hscans
    induction ys with
    | nil => exact hscans
    | cons y ys ih =>
      have hscans' := hys y List.mem_cons_self _ _ (breaks_flatMap ", " rfl (by decide) _ hb)
        (ih fun z hz => hys z (List.mem_cons_of_mem y hz))
      simp only [List.map_cons, List.flatMap_cons, List.append_assoc, List.cons_append]
      exact scans_symbol (by decide) (scans_space hscans')
  cases xs with
  | nil => exact fun b us _ hscans => hscans
  | cons x xs =>
    intro b us hb hscans
    have hrest := hmore xs (fun y hy => h y (List.mem_cons_of_mem x hy)) b us hb hscans
    rw [List.map_cons, toList_intercalate_cons, List.append_assoc, List.map_cons, commas,
      List.append_assoc]
    exact h x List.mem_cons_self _ _ (breaks_flatMap ", " rfl (by decide) _ hb) hrest

theorem scans_operator {op : String} (hop : IsOperator op) (h : Scans b us) :
    Scans (op.toList ++ b) (operator op :: us) := by
  obtain ⟨c, k, p, rfl, hk, -⟩ := hop
  have htext : c.toString.toList = [c] := String.toList_singleton c
  rw [operator, htext]
  exact scans_symbol (isSymbol_of_ofSymbol? hk) h

end

/-! ### Expressions -/

variable {τ : Type}

namespace Expr

theorem renderAll_eq_map (es : List (Expr τ)) : renderAll es = es.map render := by
  induction es with
  | nil => rfl
  | cons e es ih => rw [renderAll, ih, List.map_cons]

mutual

/-- The text of a legible expression scans to its spelling. -/
theorem spells_render : (e : Expr τ) → e.Legible → Spells e.render.toList e.spell
  | name id, h => spells_word h.1
  | number _ text, h => spells_numeral h
  | negative _ text, h => by
    intro b us hb hscans
    rw [render, String.toList_append]
    exact scans_symbol (by decide) (spells_numeral h b us hb hscans)
  | binary m op l r, h => by
    intro b us hb hscans
    have htext : (binary m op l r).render.toList ++ b = '(' :: (l.render.toList ++
        ' ' :: (op.toList ++ ' ' :: (r.render.toList ++ ')' :: b))) := by
      simp [render, String.toList_append]
    -- From the right: what follows a part has to break words and numbers.
    have hclose := scans_symbol (show isSymbol ')' = true by decide) hscans
    have hright := spells_render r h.2.2 _ _ (breaks_cons (by decide) b) hclose
    have hop := scans_operator h.1 (scans_space hright)
    have hleft := spells_render l h.2.1 _ _ (breaks_cons (by decide) _) (scans_space hop)
    rw [htext, spell]
    simpa using scans_symbol (show isSymbol '(' = true by decide) hleft
  | call f args, h => by
    intro b us hb hscans
    have htext : (call f args).render.toList ++ b = f.name.toList ++ '(' ::
        ((", ".intercalate (args.map render)).toList ++ ')' :: b) := by
      simp [render, renderAll_eq_map, String.toList_append]
    have hclose := scans_symbol (show isSymbol ')' = true by decide) hscans
    have hargs := spells_commas (spells_render_all args h.2) _ _ (breaks_cons (by decide) b) hclose
    have hopen := scans_symbol (show isSymbol '(' = true by decide) hargs
    rw [htext, spell, spellAll_eq_map]
    simpa using spells_word h.1.1 _ _ (breaks_cons (by decide) _) hopen
  | list m es, h => by
    intro b us hb hscans
    have htext : (list m es).render.toList ++ b = '[' ::
        ((", ".intercalate (es.map render)).toList ++ ']' :: b) := by
      simp [render, renderAll_eq_map, String.toList_append]
    have hclose := scans_symbol (show isSymbol ']' = true by decide) hscans
    have helems := spells_commas (spells_render_all es h) _ _ (breaks_cons (by decide) b) hclose
    rw [htext, spell, spellAll_eq_map]
    simpa using scans_symbol (show isSymbol '[' = true by decide) helems

theorem spells_render_all : (es : List (Expr τ)) → AllLegible es →
    ∀ e ∈ es, Spells e.render.toList e.spell
  | [], _ => by simp
  | e :: es, h => by
    intro x hx
    rcases List.mem_cons.mp hx with hx | hx
    · rw [hx]
      exact spells_render e h.1
    · exact spells_render_all es h.2 x hx

end

end Expr

/-! ### Statements -/

namespace Stmt

/-- Lines between braces. -/
theorem spells_renderBody {lines : List String} {ts : List Token}
    (hempty : lines.isEmpty = ts.isEmpty)
    (h : Spells (lines.flatMap fun t => "\n".toList ++ t.toList) ts) :
    Spells (renderBody lines).toList (braces ts) := by
  intro b us hb hscans
  have hclose := scans_symbol (show isSymbol '\x7d' = true by decide) hscans
  have hopen : isSymbol '\x7b' = true := by decide
  cases lines with
  | nil =>
    have hnil : ts.isEmpty = true := hempty.symm
    rw [renderBody, braces, if_pos hnil]
    exact scans_symbol hopen hclose
  | cons l ls =>
    have hcons : ¬ ts.isEmpty = true := by
      rw [← hempty]
      simp
    have htext : (renderBody (l :: ls)).toList ++ b = '\x7b' ::
        ((l :: ls).flatMap (fun t => "\n".toList ++ t.toList) ++ '\n' :: '\x7d' :: b) := by
      have hjoin := toList_intercalate_cons "\n" l ls
      simp [renderBody, String.toList_append, -String.toList_intercalate, hjoin]
    -- The closing brace stands on a line of its own.
    have hlines := h _ _ (breaks_cons (by decide) _) (scans_newline hclose)
    rw [htext, braces, if_neg hcons]
    simpa using scans_symbol hopen hlines

theorem isEmpty_spellLines (ss : List (Stmt τ)) :
    (renderAll ss).isEmpty = (spellLines ss).isEmpty := by
  cases ss <;> rfl

mutual

/-- The text of a legible statement scans to its spelling. -/
theorem spells_render : (s : Stmt τ) → s.Legible → Spells s.render.toList s.spell
  | declare m x e, h => by
    intro b us hb hscans
    have htext : (declare m x e).render.toList ++ b
        = x.name.toList ++ ' ' :: '=' :: ' ' :: (e.render.toList ++ b) := by
      change (x.name ++ " = " ++ e.render).toList ++ b = _
      simp [String.toList_append]
    have hvalue := e.spells_render h.2 b us hb hscans
    have hassign := scans_symbol (show isSymbol '=' = true by decide) (scans_space hvalue)
    rw [htext, spell]
    exact spells_word h.1.1 _ _ (breaks_cons (by decide) _) (scans_space hassign)
  | define f params e, h => by
    intro b us hb hscans
    have htext : (define f params e).render.toList ++ b = f.name.toList ++ '(' ::
        ((", ".intercalate (params.map Ident.name)).toList ++
          ')' :: ' ' :: '=' :: ' ' :: (e.render.toList ++ b)) := by
      change (f.name ++ "(" ++ ", ".intercalate (params.map Ident.name) ++ ") = "
        ++ e.render).toList ++ b = _
      simp [String.toList_append]
    have hbody := e.spells_render h.2.2 b us hb hscans
    have hassign := scans_symbol (show isSymbol '=' = true by decide) (scans_space hbody)
    have hclose := scans_symbol (show isSymbol ')' = true by decide) (scans_space hassign)
    have hparams := spells_commas (fun p hp => spells_word (h.2.1 p hp).1) _ _
      (breaks_cons (by decide) _) hclose
    have hopen := scans_symbol (show isSymbol '(' = true by decide) hparams
    rw [htext, spell]
    simpa using spells_word h.1.1 _ _ (breaks_cons (by decide) _) hopen
  | print m e, h => e.spells_render h
  | count m a c i s body, h => by
    intro b us hb hscans
    have htext : (count m a c i s body).render.toList ++ b = "from".toList ++ ' ' ::
        (a.render.toList ++ ' ' :: ("to".toList ++ ' ' :: (c.render.toList ++ ' ' ::
        ("as".toList ++ ' ' :: (i.name.toList ++ ' ' :: ("with".toList ++ ' ' ::
        ("step".toList ++ ' ' :: (s.render.toList ++ ' ' ::
        ((renderBody (renderAll body)).toList ++ b))))))))) := by
      change ("from " ++ a.render ++ " to " ++ c.render ++ " as " ++ i.name ++ " with step "
        ++ s.render ++ " " ++ renderBody (renderAll body)).toList ++ b = _
      simp [String.toList_append]
    have hbody := spells_renderBody (isEmpty_spellLines body) (spells_lines body h.2.2.2.2) b us hb
      hscans
    have hstep := spells_spaced (s.spells_render h.2.2.2.1) hbody
    have hvar := spells_spaced (spells_word h.2.2.1.1)
      (spells_spaced (spells_keyword "with" (by decide +kernel))
        (spells_spaced (spells_keyword "step" (by decide +kernel)) hstep))
    have hstop := spells_spaced (c.spells_render h.2.1)
      (spells_spaced (spells_keyword "as" (by decide +kernel)) hvar)
    have hstart := spells_spaced (a.spells_render h.1)
      (spells_spaced (spells_keyword "to" (by decide +kernel)) hstop)
    rw [htext, spell]
    simp only [List.cons_append, List.append_assoc]
    exact spells_spaced (spells_keyword "from" (by decide +kernel)) hstart
  | each m i e body, h => by
    intro b us hb hscans
    have htext : (each m i e body).render.toList ++ b = "for".toList ++ ' ' ::
        (i.name.toList ++ ' ' :: ("in".toList ++ ' ' :: (e.render.toList ++ ' ' ::
        ((renderBody (renderAll body)).toList ++ b)))) := by
      change ("for " ++ i.name ++ " in " ++ e.render ++ " "
        ++ renderBody (renderAll body)).toList ++ b = _
      simp [String.toList_append]
    have hbody := spells_renderBody (isEmpty_spellLines body) (spells_lines body h.2.2) b us hb
      hscans
    have hsource := spells_spaced (e.spells_render h.2.1) hbody
    have hvar := spells_spaced (spells_word h.1.1)
      (spells_spaced (spells_keyword "in" (by decide +kernel)) hsource)
    rw [htext, spell]
    simp only [List.cons_append, List.append_assoc]
    exact spells_spaced (spells_keyword "for" (by decide +kernel)) hvar
  | block m body, h => spells_renderBody (isEmpty_spellLines body) (spells_lines body h)
  | unpack m l r, h => by
    intro b us hb hscans
    have htext : (unpack m l r).render.toList ++ b
        = l.render.toList ++ ' ' :: '=' :: ' ' :: (r.render.toList ++ b) := by
      change (l.render ++ " = " ++ r.render).toList ++ b = _
      simp [String.toList_append]
    have hright := r.spells_render h.2.2 b us hb hscans
    have hassign := scans_symbol (show isSymbol '=' = true by decide) (scans_space hright)
    rw [htext, spell, List.append_assoc]
    exact l.spells_render h.2.1 _ _ (breaks_cons (by decide) _) (scans_space hassign)

/-- The texts of legible statements, each on a line of its own. -/
theorem spells_lines : (ss : List (Stmt τ)) → AllLegible ss →
    Spells ((renderAll ss).flatMap fun t => "\n".toList ++ t.toList) (spellLines ss)
  | [], _ => fun _ _ _ hscans => hscans
  | s :: ss, h => by
    intro b us hb hscans
    have hrest := spells_lines ss h.2 b us hb hscans
    have hfirst := spells_render s h.1 _ _ (breaks_flatMap "\n" rfl (by decide) _ hb) hrest
    simpa [renderAll, spellLines] using scans_newline hfirst

end

end Stmt

/-- The text of a program of legible statements scans to its spelling. -/
theorem Program.scans_render {p : Program τ} (h : Stmt.AllLegible p) :
    Scans p.render.toList p.spell := by
  cases p with
  | nil => exact scans_nil
  | cons s ss =>
    have hrest := Stmt.spells_lines ss h.2 [] [] breaks_nil scans_nil
    rw [List.append_nil, List.append_nil] at hrest
    have hnext := breaks_flatMap "\n" rfl (by decide) (Stmt.renderAll ss) breaks_nil
    rw [List.append_nil] at hnext
    rw [Program.render, Stmt.renderAll, toList_intercalate_cons]
    exact Stmt.spells_render s h.1 _ _ hnext hrest

/-! ### What scans give -/

theorem filter_numberSpan_true (cs : List Char) :
    ∀ d ∈ (numberSpan true cs).1.filter (· != '_'), isDigit d = true := by
  induction cs with
  | nil => simp [numberSpan]
  | cons c cs ih =>
    rw [numberSpan]
    split
    · next hc =>
      intro d hd
      obtain ⟨hd, hkeep⟩ := List.mem_filter.mp hd
      rcases List.mem_cons.mp hd with rfl | hd
      · simpa [bne_iff_ne.mp hkeep] using hc
      · exact ih d (List.mem_filter.mpr ⟨hd, hkeep⟩)
    · simp

/-- Without its separators, a run is digits, or digits with a point among them. -/
theorem filter_numberSpan_false (cs : List Char) :
    ∃ whole, (∀ d ∈ whole, isDigit d = true) ∧
      ((numberSpan false cs).1.filter (· != '_') = whole ∨
        ∃ fraction, (numberSpan false cs).1.filter (· != '_') = whole ++ '.' :: fraction ∧
          ∀ d ∈ fraction, isDigit d = true) := by
  induction cs with
  | nil => exact ⟨[], by simp, .inl rfl⟩
  | cons c cs ih =>
    obtain ⟨whole, hwhole, hfilter⟩ := ih
    rw [numberSpan]
    split
    · next hc =>
      by_cases hunderscore : c = '_'
      · simp only [hunderscore, List.filter_cons, bne_self_eq_false, Bool.false_eq_true, if_false]
        exact ⟨whole, hwhole, hfilter⟩
      · have hdigit : isDigit c = true := by simpa [hunderscore] using hc
        have hkeep : (c != '_') = true := bne_iff_ne.mpr hunderscore
        simp only [List.filter_cons, hkeep, if_true]
        refine ⟨c :: whole, ?_, ?_⟩
        · intro d hd
          rcases List.mem_cons.mp hd with rfl | hd
          · exact hdigit
          · exact hwhole d hd
        · rcases hfilter with hfilter | ⟨fraction, hfilter, hfraction⟩
          · exact .inl (congrArg (c :: ·) hfilter)
          · exact .inr ⟨fraction, congrArg (c :: ·) hfilter, hfraction⟩
    · split
      · next hc =>
        obtain rfl : c = '.' := by simpa using hc
        exact ⟨[], by simp, .inr ⟨_, rfl, filter_numberSpan_true cs⟩⟩
      · exact ⟨[], by simp, .inl rfl⟩

/-- The canonical form of a run is a number in canonical form. -/
theorem isNumeral_canonicalNumber {c : Char} (hc : (isDigit c || c == '.') = true)
    (cs : List Char) :
    IsNumeral (String.ofList (canonicalNumber (numberSpan false (c :: cs)).1)) := by
  rw [IsNumeral, String.toList_ofList]
  obtain ⟨whole, hwhole, hfilter | ⟨fraction, hfilter, hfraction⟩⟩ :=
    filter_numberSpan_false (c :: cs)
  · have hne : whole ≠ [] := by
      -- The first character is kept: it is a digit, or the point that is not there.
      rintro rfl
      rw [numberSpan] at hfilter
      by_cases hdigit : isDigit c = true
      · have hkeep : c ≠ '_' := ne_of_isDigit hdigit (by decide)
        simp [hdigit, hkeep] at hfilter
      · obtain rfl : c = '.' := by simpa [hdigit] using hc
        simp [hdigit] at hfilter
    exact ⟨whole, ['0'], canonicalNumber_of_digits hfilter hwhole, hne, by simp, hwhole,
      isDigit_of_mem_zero⟩
  · refine ⟨_, _, canonicalNumber_of_point hfilter hwhole hfraction, ?_, ?_,
      isDigit_of_mem_ite hwhole, isDigit_of_mem_ite hfraction⟩
    · split <;> simp_all
    · split <;> simp_all

/-- Letters and digits from a letter on are a word. -/
theorem isWord_takeWhile {c : Char} (hc : isLetter c = true) (cs : List Char) :
    IsWord (String.ofList ((c :: cs).takeWhile isWordChar)) := by
  have hfirst : isWordChar c = true := by simp [isWordChar, hc]
  refine ⟨c, cs.takeWhile isWordChar, ?_, hc, ?_⟩
  · rw [String.toList_ofList, List.takeWhile_cons, if_pos hfirst]
  · exact fun d hd => List.all_eq_true.mp List.all_takeWhile d hd

theorem proper_word {text : String} (h : IsWord text) (p : Place) :
    Proper ⟨.ofWord text, text, p⟩ := by
  have hkeywords : ∀ k ∈ Kind.keywords, k ≠ .number ∧ Parser.precedence? k = none := by decide
  refine ⟨fun hk => ⟨h, hk⟩, fun hk => ?_, fun q hq => ?_⟩
  · dsimp only at hk
    rcases ofWord_cases text with hident | hkeyword
    · cases hident.symm.trans hk
    · exact absurd hk (hkeywords _ hkeyword).1
  · dsimp only at hq
    rcases ofWord_cases text with hident | hkeyword
    · rw [hident] at hq
      cases hq
    · rw [(hkeywords _ hkeyword).2] at hq
      cases hq

theorem proper_symbol (c : Char) (p : Place) :
    Proper ⟨(Kind.ofSymbol? c).getD .illegal, c.toString, p⟩ := by
  refine ⟨fun hk => ?_, fun hk => ?_, fun q hq => ?_⟩
  · dsimp only at hk
    unfold Kind.ofSymbol? at hk
    split at hk <;> cases hk
  · dsimp only at hk
    unfold Kind.ofSymbol? at hk
    split at hk <;> cases hk
  · cases hc : Kind.ofSymbol? c with
    | none =>
      simp only [hc] at hq
      cases hq
    | some k =>
      simp only [hc] at hq
      exact ⟨c, k, q, rfl, hc, hq⟩

theorem proper_numeral {text : String} (h : IsNumeral text) (p : Place) :
    Proper ⟨.number, text, p⟩ := by
  refine ⟨fun hk => ?_, fun _ => h, fun q hq => ?_⟩
  · cases hk
  · cases hq

theorem proper_newline (text : String) (p : Place) : Proper ⟨.newline, text, p⟩ := by
  refine ⟨fun hk => ?_, fun hk => ?_, fun q hq => ?_⟩
  · cases hk
  · cases hk
  · cases hq

/-- A lexeme is proper unless a second point cuts it short. -/
theorem proper_lexeme {c : Char} {cs : List Char} (hwf : (lexeme c cs).wellFormed = true)
    (p : Place) : Proper ⟨(lexeme c cs).kind, (lexeme c cs).text, p⟩ := by
  rw [lexeme] at hwf ⊢
  split
  · exact proper_newline "\n" p
  · split
    · next hletter => exact proper_word (isWord_takeWhile hletter cs) p
    · split
      · next hline hletter hnumber =>
        rw [if_neg hline, if_neg hletter, if_pos hnumber] at hwf
        by_cases hpoint : (numberSpan false (c :: cs)).2.head? = some '.'
        · simp only [if_pos hpoint] at hwf
          cases hwf
        · simp only [if_neg hpoint]
          exact proper_numeral (isNumeral_canonicalNumber hnumber cs) p
      · exact proper_symbol c p

/-- All tokens of a scan are proper. -/
theorem proper_of_scan {p : Place} {cs : List Char} {ts : List Token}
    (h : scan p cs = .ok ts) : ∀ t ∈ ts, t.Proper :=
  forall_of_scan (fun _ _ _ _ _ hwf => proper_lexeme hwf _) h

end ListCalc
