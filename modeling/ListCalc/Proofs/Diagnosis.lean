/-
Diagnostics point into the source.

A source that cannot be run to its end has an error with a token.  If the scanner
fails, the token stands where a character of the source does.  Otherwise it is one of
the tokens of the source: the parser complains about what it was given, and a run
fails with a mark of the program (`Session.mark_of_interpret`), which is a token of
the source again.  It is never the token that is made up for the step of a loop, since
no two tokens of a source stand at the same place.

* `Place.Before`, `pairwise_of_tokenize` — tokens stand one behind the other;
* `RunError.token?` — the token that an error names;
* `diagnostics_point_into_source` — the token of every error.
-/
import ListCalc.Proofs.Blame
import ListCalc.Proofs.Faults
import ListCalc.Proofs.RoundTrip
import ListCalc.Proofs.Token.Lossless
import Mathlib.Data.List.Nodup

namespace ListCalc

/-! ### Places in order -/

/-- The place is further up, or further left on the same line. -/
def Place.Before (p q : Place) : Prop :=
  p.line < q.line ∨ p.line = q.line ∧ p.column < q.column

namespace Place

theorem before_after (p : Place) (c : Char) : p.Before (p.after c) := by
  rw [after]
  split
  · exact .inl (Int.lt_succ p.line)
  · exact .inr ⟨rfl, Int.lt_succ p.column⟩

theorem Before.trans {p q r : Place} (hpq : p.Before q) (hqr : q.Before r) : p.Before r := by
  unfold Before at *
  omega

theorem Before.ne {p q : Place} (h : p.Before q) : p ≠ q := by
  rintro rfl
  unfold Before at h
  omega

theorem before_afterAll (p : Place) (c : Char) (cs : List Char) :
    p.Before (p.afterAll (c :: cs)) := by
  induction cs generalizing p c with
  | nil => exact before_after p c
  | cons d cs ih => exact (before_after p c).trans (ih (p.after c) d)

end Place

/-- The tokens of a scan stand one behind the other. -/
theorem pairwise_of_scan {p : Place} {cs : List Char} {ts : List Token} (h : scan p cs = .ok ts) :
    ts.Pairwise fun t u => t.place.Before u.place := by
  fun_induction scan p cs generalizing ts with
  | case1 p =>
    obtain rfl := Except.ok.inj h
    exact .nil
  | case2 p c cs hc ih => exact ih h
  | case3 p c cs hc hwf ih =>
    cases hrest : scan (p.afterAll (lexeme c cs).taken) (lexeme c cs).rest with
    | error e =>
      rw [hrest] at h
      cases h
    | ok us =>
      rw [hrest] at h
      obtain rfl := Except.ok.inj h
      refine .cons (forall_of_scan (fun front d rest _ _ _ => ?_) hrest) (ih hrest)
      -- The characters of the first token stand in between.
      obtain ⟨x, xs, htaken⟩ := List.exists_cons_of_ne_nil (lexeme_taken_ne_nil c cs)
      rw [← afterAll_append, htaken]
      exact Place.before_afterAll p x (xs ++ front)
  | case4 p c cs hc hwf => cases h

theorem pairwise_of_tokenize {file source : String} {ts : List Token}
    (h : tokenize file source = .ok ts) : ts.Pairwise fun t u => t.place.Before u.place := by
  obtain ⟨us, hscan, rfl⟩ := exists_scan_of_tokenize h
  refine List.pairwise_append.mpr ⟨pairwise_of_scan hscan, List.pairwise_singleton _ _, ?_⟩
  refine forall_of_scan (fun front c rest hsplit _ _ => ?_) hscan
  refine List.forall_mem_singleton.mpr ?_
  rw [hsplit, afterAll_append]
  exact Place.before_afterAll _ c rest

/-- No two tokens of a source stand at the same place. -/
theorem eq_of_place_eq {file source : String} {ts : List Token} (h : tokenize file source = .ok ts)
    {t u : Token} (ht : t ∈ ts) (hu : u ∈ ts) (hplace : t.place = u.place) : t = u := by
  have hnodup : (ts.map Token.place).Nodup :=
    List.pairwise_map.mpr ((pairwise_of_tokenize h).imp Place.Before.ne)
  exact List.inj_on_of_nodup_map hnodup ht hu hplace

theorem file_of_tokenize {file source : String} {ts : List Token}
    (h : tokenize file source = .ok ts) : ∀ t ∈ ts, t.place.file = file := by
  obtain ⟨us, hscan, rfl⟩ := exists_scan_of_tokenize h
  refine List.forall_mem_append.mpr ⟨?_, List.forall_mem_singleton.mpr ?_⟩
  · refine forall_of_scan (fun front c rest _ _ _ => ?_) hscan
    rw [afterAll_start]
    rfl
  · rw [afterAll_start]
    rfl

/-- A token of a source is not the one that is made up for the step of a loop. -/
theorem ne_unitStep_mark {file source : String} {ts : List Token}
    (h : tokenize file source = .ok ts) {t var : Token} (ht : t ∈ ts) (hvar : var ∈ ts)
    (hkind : var.kind = .ident) : t ≠ (Parser.unitStep var).mark := by
  intro heq
  have hplace : t.place = var.place := by rw [heq]; rfl
  -- It would be the loop variable, which is no number.
  obtain rfl := eq_of_place_eq h ht hvar hplace
  have hnumber : t.kind = .number := by rw [heq]; rfl
  rw [hkind] at hnumber
  cases hnumber

/-- The scanner fails where a character stands. -/
theorem place_of_scan_error {p : Place} {cs : List Char} {e : ScanError}
    (h : scan p cs = .error e) :
    ∃ front c back, cs = front ++ c :: back ∧ e.token.place = p.afterAll front := by
  fun_induction scan p cs with
  | case1 p => cases h
  | case2 p c cs hc ih =>
    obtain ⟨front, d, back, rfl, hplace⟩ := ih h
    exact ⟨c :: front, d, back, rfl, hplace⟩
  | case3 p c cs hc hwf ih =>
    cases hrest : scan (p.afterAll (lexeme c cs).taken) (lexeme c cs).rest with
    | error e' =>
      rw [hrest] at h
      obtain rfl := Except.error.inj h
      obtain ⟨front, d, back, hsplit, hplace⟩ := ih hrest
      refine ⟨(lexeme c cs).taken ++ front, d, back, ?_, ?_⟩
      · rw [List.append_assoc, ← hsplit, lexeme_taken_append]
      · rw [hplace, afterAll_append]
    | ok us =>
      rw [hrest] at h
      cases h
  | case4 p c cs hc hwf =>
    obtain rfl := Except.error.inj h
    exact ⟨[], c, cs, rfl, rfl⟩

theorem place_of_tokenize_error {file source : String} {e : ScanError}
    (h : tokenize file source = .error e) :
    ∃ front c back, source.toList = front ++ c :: back ∧
      e.token.place = Place.behind file front := by
  rw [tokenize_eq] at h
  cases hscan : scan ⟨file, 1, 1⟩ source.toList with
  | error x =>
    rw [hscan] at h
    obtain rfl := Except.error.inj h
    simpa only [afterAll_start] using place_of_scan_error hscan
  | ok us =>
    rw [hscan] at h
    cases h

/-! ### Parsing -/

theorem mem_of_mem_tokensBeforeEnd {ts : List Token} {t : Token} (h : t ∈ tokensBeforeEnd ts) :
    t ∈ ts :=
  (List.takeWhile_prefix _).mem h

/-- The parser complains about a token of the source, which may be its end. -/
theorem mem_of_parseTokens_error {file source : String} {ts : List Token}
    (h : tokenize file source = .ok ts) {e : ParseError} (he : parseTokens ts = .error e) :
    e.token ∈ ts := by
  rw [parseTokens_eq] at he
  cases hprog : Parser.program (tokensBeforeEnd ts) with
  | ok p =>
    rw [hprog] at he
    cases he
  | error c =>
    rw [hprog] at he
    obtain rfl := Except.error.inj he
    show c.token?.getD (endToken ts) ∈ ts
    cases htoken : c.token? with
    | none =>
      obtain ⟨us, hscan, rfl⟩ := exists_scan_of_tokenize h
      rw [Option.getD_none, endToken_append (kind_ne_eof_of_scan hscan) _ rfl]
      exact List.mem_append_right us List.mem_cons_self
    | some t => exact mem_of_mem_tokensBeforeEnd (Parser.mem_of_program_error hprog htoken)

theorem allMarked_of_parseTokens {ts : List Token} {p : Program Token}
    (h : parseTokens ts = .ok p) : Stmt.AllMarked (· ∈ tokensBeforeEnd ts) p := by
  rw [parseTokens_eq] at h
  cases hprog : Parser.program (tokensBeforeEnd ts) with
  | ok q =>
    rw [hprog] at h
    obtain rfl := Except.ok.inj h
    exact Parser.allMarked_of_program hprog
  | error c =>
    rw [hprog] at h
    cases h

/-! ### Running -/

/-- The token that an error names.  A run that its bound has stopped names none. -/
def RunError.token? : RunError → Option Token
  | source (.scan e) => some e.token
  | source (.parse e) => some e.token
  | failure e => e.mark?
  | unfinished => none

/-- Why a source stops early, other than for want of steps: it cannot be scanned, its tokens spell
no program, or the program fails. -/
theorem runSource_cases {bound : Nat} {file source : String} {out out' : Writer} {e : RunError}
    (h : runSource bound file source out = (some e, out')) (hfinished : e ≠ .unfinished) :
    (∃ x, tokenize file source = .error x ∧ e = .source (.scan x)) ∨
    ∃ ts, tokenize file source = .ok ts ∧
      ((∃ x, parseTokens ts = .error x ∧ e = .source (.parse x)) ∨
      ∃ p x, parseTokens ts = .ok p ∧ parse file source = .ok p ∧
        ((Session.start out).interpret bound p).1 = .failed x ∧ e = .failure x) := by
  rw [runSource] at h
  cases hscan : tokenize file source with
  | error x =>
    have hparse : parse file source = .error (.scan x) := by rw [parse, hscan]
    rw [hparse] at h
    exact .inl ⟨x, rfl, (Option.some.inj (congrArg Prod.fst h)).symm⟩
  | ok ts =>
    refine .inr ⟨ts, rfl, ?_⟩
    cases htokens : parseTokens ts with
    | error x =>
      have hparse : parse file source = .error (.parse x) := by simp only [parse, hscan, htokens]
      rw [hparse] at h
      exact .inl ⟨x, rfl, (Option.some.inj (congrArg Prod.fst h)).symm⟩
    | ok p =>
      have hparse : parse file source = .ok p := by simp only [parse, hscan, htokens]
      rw [hparse] at h
      have herror : RunError.ofOutcome ((Session.start out).interpret bound p).1 = some e :=
        congrArg Prod.fst h
      cases houtcome : ((Session.start out).interpret bound p).1 with
      | done _ =>
        rw [houtcome] at herror
        cases herror
      | failed x =>
        rw [houtcome] at herror
        exact .inr ⟨p, x, rfl, hparse, houtcome, (Option.some.inj herror).symm⟩
      | unfinished =>
        rw [houtcome] at herror
        exact absurd (Option.some.inj herror).symm hfinished

/-- What a parsed program fails with has a mark, since it is no fault. -/
theorem exists_mark_of_parse {file source : String} {p : Program Token}
    (h : parse file source = .ok p) {bound : Nat} {out : Writer} {e : Failure Token}
    (he : ((Session.start out).interpret bound p).1 = .failed e) : ∃ t, e.mark? = some t := by
  have hstart : (Session.start out).Reachable (fun _ : Call Token => True) := .start out
  have hfaultless := (Session.faultless_perform hstart.hasLastingFrame
    (fun _ he => absurd he List.not_mem_nil) (c := .interpret bound p) (allLegible_of_parse h)).1
  cases e with
  | runtime e => exact ⟨_, rfl⟩
  | literal m detail => exact ⟨_, rfl⟩
  | write m reason => exact ⟨_, rfl⟩
  | fault f => exact absurd he (hfaultless f)

/-- **Every diagnostic points into the source.**  If a source cannot be run to its end, and not for
want of steps, then the error has a token with the label of the source.  If the source cannot be
scanned, the token stands where a character does.  Otherwise it is a token of the source, and not
one that is made up for the step of a loop over numbers. -/
theorem diagnostics_point_into_source {bound : Nat} {file source : String} {out out' : Writer}
    {e : RunError} (h : runSource bound file source out = (some e, out'))
    (hfinished : e ≠ .unfinished) :
    ∃ t, e.token? = some t ∧ t.place.file = file ∧
      ((∃ x, tokenize file source = .error x ∧ e = .source (.scan x) ∧
        ∃ front c back, source.toList = front ++ c :: back ∧ t.place = Place.behind file front) ∨
      ∃ ts, tokenize file source = .ok ts ∧ t ∈ ts ∧
        ∀ var ∈ ts, var.kind = .ident → t ≠ (Parser.unitStep var).mark) := by
  rcases runSource_cases h hfinished with ⟨x, hscan, rfl⟩ | ⟨ts, hscan, hrest⟩
  · obtain ⟨front, c, back, hsplit, hplace⟩ := place_of_tokenize_error hscan
    refine ⟨x.token, rfl, by rw [hplace]; rfl, .inl ⟨x, hscan, rfl, front, c, back, hsplit, hplace⟩⟩
  · -- It is enough that the token is one of the source.
    suffices hmem : ∃ t, e.token? = some t ∧ t ∈ ts by
      obtain ⟨t, htoken, ht⟩ := hmem
      exact ⟨t, htoken, file_of_tokenize hscan t ht, .inr ⟨ts, hscan, ht, fun var hvar hkind =>
        ne_unitStep_mark hscan ht hvar hkind⟩⟩
    rcases hrest with ⟨x, htokens, rfl⟩ | ⟨p, x, htokens, hparse, hfails, rfl⟩
    · exact ⟨x.token, rfl, mem_of_parseTokens_error hscan htokens⟩
    · obtain ⟨t, ht⟩ := exists_mark_of_parse hparse hfails
      have hmark := Session.mark_of_interpret (allMarked_of_parseTokens htokens) hfails t ht
      exact ⟨t, ht, mem_of_mem_tokensBeforeEnd hmark⟩

/-- A loop without a step calls a function whose body calls another one, and the body of that one
fails. -/
theorem diagnostics_point_into_source_nested :
    let source := "f(x) = [x] + [1, 2]\ng(y) = f(y)\nfrom 1 to 2 as i \x7b\n  g(i)\n\x7d"
    ∃ x out t ts, runSource 2 "memo" source (.fresh none) = (some (.failure x), out) ∧
      x.mark? = some t ∧ t.place.file = "memo" ∧ tokenize "memo" source = .ok ts ∧ t ∈ ts ∧
      ∀ var ∈ ts, var.kind = .ident → t ≠ (Parser.unitStep var).mark := by
  intro source
  have hfailure : ∀ r : Option RunError × Writer, (r.1.any fun e => e matches .failure _) = true →
      ∃ x out, r = (some (.failure x), out) := by
    rintro ⟨_ | e, out⟩ h
    · cases h
    · cases e with
      | failure x => exact ⟨x, out, rfl⟩
      | source _ => cases h
      | unfinished => cases h
  obtain ⟨x, out, hrun⟩ := hfailure (runSource 2 "memo" source (.fresh none)) (by decide +kernel)
  obtain ⟨t, htoken, hfile, ⟨y, -, hy, -⟩ | ⟨ts, hts, ht, hstep⟩⟩ :=
    diagnostics_point_into_source hrun (by simp)
  · cases hy
  · exact ⟨x, out, t, ts, hrun, htoken, hfile, hts, ht, hstep⟩

end ListCalc
