/-
Printing a program and reading it again.

A program that was parsed is legible, so that its text scans to its spelling, and
the statements of the spelling are read back one line after the other.

* `program_spell_settled` — the spelling of a program is read back, up to marks, or
  one of its statements is of a form that is not read again and there is no program;
* `parse_render_of_parse` — the same of the text of a program that was parsed.
-/
import ListCalc.Proofs.Source
import ListCalc.Proofs.Spelling.Legible
import ListCalc.Proofs.Spelling.Scan
import ListCalc.Proofs.Spelling.Stmt

namespace ListCalc

open Token

variable {τ : Type}

namespace Parser

/-! ### Spelled programs -/

/-- A statement that is read back is a program. -/
theorem program_of_readsBack {s : Stmt τ} (hs : s.Legible) (h : StmtReadsBack s) :
    ∃ s', program s.spell = .ok [s'] ∧ s'.bare = s.bare := by
  obtain ⟨t, ts, hspell, -⟩ := spell_stmt_eq_cons hs
  obtain ⟨o, ho, hbare⟩ := h (ts.length + 1) [] endsLine_nil (by simp [hspell])
  obtain ⟨s', rfl, hs'⟩ := Option.map_eq_some_iff.mp hbare
  rw [List.append_nil, hspell] at ho
  refine ⟨s', ?_, hs'⟩
  rw [hspell, program_cons, ho]
  cases ts <;> rfl

/-- A statement that the parser balks at is no program, whatever follows. -/
theorem program_of_balks {s : Stmt τ} (hs : s.Legible) (h : StmtBalks s) :
    ∃ c, program s.spell = .error c ∧ c.kind ≠ .cutShort := by
  obtain ⟨t, ts, hspell, -⟩ := spell_stmt_eq_cons hs
  have hbalks := h (ts.length + 1) [] endsLine_nil (by simp [hspell])
  rw [List.append_nil, hspell] at hbalks
  rw [hspell, program_cons]
  rcases hbalks with ⟨c, hc, hk⟩ | ⟨o, eq, us, hok, heq, hlen⟩
  · exact ⟨c, by rw [hc], hk⟩
  · -- The equals sign that is left starts no statement.
    obtain ⟨n, hn⟩ : ∃ n, ts.length = n + 1 := ⟨ts.length - 1, by simp at hlen; omega⟩
    obtain ⟨c, hc, hk⟩ := fails_statement_assign heq (n + 1) us
    refine ⟨c, ?_, hk⟩
    rw [hok]
    dsimp only
    rw [hn, statements_cons, bind_apply, hc]
    rfl

/-- Lines behind a program are a program of their own. -/
theorem program_append_spellLines {ts : List Token} {p : Program Token} (hp : program ts = .ok p)
    (ss : List (Stmt τ)) :
    program (ts ++ Stmt.spellLines ss) = (program (Stmt.spellLines ss)).map (p ++ ·) := by
  cases ss with
  | nil =>
    rw [Stmt.spellLines, List.append_nil, hp]
    exact congrArg Except.ok (List.append_nil p).symm
  | cons s ss =>
    rw [Stmt.spellLines, program_append_of_ok kind_lineEnd _ hp,
      program_newline kind_lineEnd]

/-- Lines behind what is no program do not make it one. -/
theorem program_append_spellLines_of_error {ts : List Token} {c : Complaint}
    (hc : program ts = .error c) (hkind : c.kind ≠ .cutShort) (ss : List (Stmt τ)) :
    program (ts ++ Stmt.spellLines ss) = .error c := by
  cases ss with
  | nil => rw [Stmt.spellLines, List.append_nil, hc]
  | cons s ss => rw [Stmt.spellLines, program_append_of_error kind_lineEnd _ hc hkind]

/-- **The spelling of legible statements is read back, up to marks, or one of them is of a form
that is not read again and the spelling is that of no program.** -/
theorem program_spell_settled {ss : List (Stmt τ)} (hss : Stmt.AllLegible ss) :
    ((∀ s ∈ ss, s.Rereadable) ∧
      ∃ p, program (Stmt.spellLines ss) = .ok p ∧ Program.bare p = Program.bare ss) ∨
    (¬ (∀ s ∈ ss, s.Rereadable) ∧ ∃ c, program (Stmt.spellLines ss) = .error c) := by
  induction ss with
  | nil => exact .inl ⟨by simp, [], rfl, rfl⟩
  | cons s ss ih =>
    rw [Stmt.spellLines, program_newline kind_lineEnd]
    rcases settled s hss.1 with ⟨hs, hreads⟩ | ⟨hs, hbalks⟩
    · obtain ⟨s', hprog, hs'⟩ := program_of_readsBack hss.1 hreads
      rw [program_append_spellLines hprog]
      rcases ih hss.2 with ⟨hall, p, hp, hbare⟩ | ⟨hall, c, hc⟩
      · refine .inl ⟨List.forall_mem_cons.mpr ⟨hs, hall⟩, s' :: p, by rw [hp]; rfl, ?_⟩
        show s'.bare :: Program.bare p = s.bare :: Program.bare ss
        rw [hs', hbare]
      · exact .inr ⟨fun h => hall (List.forall_mem_cons.mp h).2, c, by rw [hc]; rfl⟩
    · obtain ⟨c, hc, hk⟩ := program_of_balks hss.1 hbalks
      exact .inr ⟨fun h => hs (h s List.mem_cons_self), c,
        program_append_spellLines_of_error hc hk ss⟩

theorem program_spell (p : Program τ) : program p.spell = program (Stmt.spellLines p) := by
  cases p with
  | nil => rfl
  | cons s ss => rw [Stmt.spellLines, program_newline kind_lineEnd]; rfl

end Parser

/-! ### Sources -/

/-- Programs that are parsed are legible. -/
theorem allLegible_of_parse {file source : String} {p : Program Token}
    (h : parse file source = .ok p) : Stmt.AllLegible p := by
  rw [parse_eq_parseFrom] at h
  obtain ⟨ts, hscan, hprog⟩ := parseFrom_eq_ok_iff.mp h
  exact Parser.allLegible_of_program (proper_of_scan hscan) hprog

/-- A source that scans to `ts` spells, up to marks, what `ts` spell. -/
theorem parse_of_scans {source : String} {ts : List Token} (h : Scans source.toList ts)
    (file : String) :
    (∃ p q, Parser.program ts = .ok p ∧ parse file source = .ok q ∧
      Program.bare q = Program.bare p) ∨
    (∃ c e, Parser.program ts = .error c ∧ parse file source = .error e) := by
  obtain ⟨us, hscan, rfl⟩ := h ⟨file, 1, 1⟩
  -- The tokens have places, and those of the spelling have none.
  have hplaces := Parser.program_relocate (fun _ => default) us
  rw [parse_eq_parseFrom, parseFrom, hscan, hplaces]
  dsimp only
  cases Parser.program us with
  | ok q => exact .inl ⟨_, q, rfl, rfl, (Program.bare_mapAll _ q).symm⟩
  | error c => exact .inr ⟨_, _, rfl, rfl⟩

/-- The text of a program that was parsed is parsed again exactly if no statement in it, at any
depth, prints a bare negative number or unpacks into something that is not written as a list; and
what is then parsed differs from the program in its marks only. -/
theorem parse_render_of_parse {file source : String} {p : Program Token}
    (h : parse file source = .ok p) (label : String) :
    ((∃ q, parse label p.render = .ok q) ↔
      ∀ s ∈ Stmt.nestedAll p, s.printsNegative = false ∧ s.unpacksOther = false) ∧
    ∀ q, parse label p.render = .ok q → Program.bare q = Program.bare p := by
  have hlegible := allLegible_of_parse h
  rw [Stmt.forall_nestedAll]
  -- The text scans to the spelling, so the parser answers to it as to the spelling.
  rcases Parser.program_spell_settled hlegible with ⟨hall, p', hp', hbare⟩ | ⟨hall, c, hc⟩
  · rw [← Parser.program_spell] at hp'
    obtain ⟨p'', q, hp'', hq, hbare'⟩ | ⟨c, e, hc, -⟩ :=
      parse_of_scans (Program.scans_render hlegible) label
    · obtain rfl : p' = p'' := Except.ok.inj (hp'.symm.trans hp'')
      refine ⟨⟨fun _ => hall, fun _ => ⟨q, hq⟩⟩, fun q' hq' => ?_⟩
      obtain rfl : q = q' := Except.ok.inj (hq.symm.trans hq')
      exact hbare'.trans hbare
    · rw [hp'] at hc
      cases hc
  · rw [← Parser.program_spell] at hc
    obtain ⟨p', q, hp', -⟩ | ⟨c', e, -, he⟩ :=
      parse_of_scans (Program.scans_render hlegible) label
    · rw [hc] at hp'
      cases hp'
    · have hnone : ∀ q, parse label p.render ≠ .ok q := by
        intro q hq
        rw [he] at hq
        cases hq
      refine ⟨⟨?_, fun hread => absurd hread hall⟩, fun q hq => absurd hq (hnone q)⟩
      rintro ⟨q, hq⟩
      exact absurd hq (hnone q)

/-- A loop whose body unpacks a list and prints a sum. -/
theorem parse_render_of_parse_loop :
    ∃ p q, parse "loop" "from 0 to n as i \x7b\n  [a, b] = [i, -1]\n  a + f(b) * 2\n\x7d" = .ok p ∧
      parse "again" p.render = .ok q ∧ Program.bare q = Program.bare p := by
  have hforms : ((parse "loop"
      "from 0 to n as i \x7b\n  [a, b] = [i, -1]\n  a + f(b) * 2\n\x7d").toOption.map fun p =>
        (Stmt.nestedAll p).all fun s => !s.printsNegative && !s.unpacksOther) = some true := by
    decide +kernel
  generalize "from 0 to n as i \x7b\n  [a, b] = [i, -1]\n  a + f(b) * 2\n\x7d" = source
    at hforms ⊢
  cases h : parse "loop" source with
  | error e =>
    rw [h] at hforms
    cases hforms
  | ok p =>
    rw [h] at hforms
    have hall : ∀ s ∈ Stmt.nestedAll p, s.printsNegative = false ∧ s.unpacksOther = false := by
      simpa using Option.some.inj hforms
    obtain ⟨hiff, hbare⟩ := parse_render_of_parse h "again"
    obtain ⟨q, hq⟩ := hiff.mpr hall
    exact ⟨p, q, rfl, hq, hbare q hq⟩

end ListCalc
