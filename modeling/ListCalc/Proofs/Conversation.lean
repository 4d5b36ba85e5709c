/-
A conversation does what the script does.

The lines of a program can be typed in one after the other, or run as a whole.
Typed in, they are cut into entries by trial: an entry ends with the first line
that leaves no text incomplete.

* `readAll_of_parse` — if the lines spell a program together, then the entries
  take up all lines, each of them spells a program, and the programs of the
  entries, one behind the other, are the program of the lines;
* `runEntries_eq_runAll` — running the entries in one session is running their
  programs one behind the other in one frame;
* `conversation_agrees_with_script` — so both print the same and end alike.
-/
import ListCalc.Entry
import ListCalc.Proofs.Frames
import ListCalc.Proofs.Marks.Run
import ListCalc.Proofs.Source

namespace ListCalc

/-! ### Cutting lines into entries -/

namespace Entry

theorem isIncomplete_of_ok {source : String} {prog : Program Token}
    (h : parse Session.entryLabel source = .ok prog) : isIncomplete source = false := by
  rw [isIncomplete, h]

theorem parse_empty (file : String) : parse file "" = .ok [] := parse_of_allBlank file rfl

/-- Lines in front that leave nothing incomplete spell a program of their own, and so do the
lines behind them. -/
theorem parse_split {front rest : List String} (hfront : front ≠ [])
    (hcomplete : isIncomplete ("\n".intercalate front) = false) {prog : Program Token}
    (h : parse Session.entryLabel ("\n".intercalate (front ++ rest)) = .ok prog) :
    ∃ q r, parse Session.entryLabel ("\n".intercalate front) = .ok q ∧
      parse Session.entryLabel ("\n".intercalate rest) = .ok r ∧
      Program.bare prog = Program.bare (q ++ r) := by
  by_cases hrest : rest = []
  · -- No line is left over.
    rw [hrest, List.append_nil] at h
    rw [hrest]
    exact ⟨prog, [], h, parse_empty _, by rw [List.append_nil]⟩
  · rw [String.intercalate_append_of_ne_nil hfront hrest] at h
    cases hq : parse Session.entryLabel ("\n".intercalate front) with
    | error e =>
      -- An error that more lines cannot mend would be one of the whole source too.
      rw [isIncomplete, hq] at hcomplete
      obtain ⟨e', he'⟩ := parse_append_of_final hq hcomplete ("\n".intercalate rest)
      cases h.symm.trans he'
    | ok q =>
      rw [parse_append_of_ok hq] at h
      cases hr : parse Session.entryLabel ("\n".intercalate rest) with
      | error e =>
        rw [hr] at h
        cases h
      | ok r =>
        rw [hr] at h
        obtain rfl := Except.ok.inj h
        refine ⟨q, r, rfl, rfl, ?_⟩
        rw [Program.bare_append, Program.bare_append, Program.bare_mapAll]

/-- Pending lines are never taken for none at all. -/
theorem extend_intercalate {pending : List String}
    (hpending : pending ≠ [] → isIncomplete ("\n".intercalate pending) = true) (line : String) :
    extend ("\n".intercalate pending) line = "\n".intercalate (pending ++ [line]) := by
  by_cases hnil : pending = []
  · rw [hnil]
    rfl
  · have htext : "\n".intercalate pending ≠ "" := by
      intro hempty
      have hincomplete := hpending hnil
      rw [hempty, isIncomplete_of_ok (parse_empty _)] at hincomplete
      cases hincomplete
    rw [extend, if_neg htext, String.intercalate_append_of_ne_nil hnil (List.cons_ne_nil _ _)]
    rfl

/-- An entry is read off lines that spell a program: some lines in front, which spell a program,
and what is left spells the rest of it. -/
theorem readFrom_of_parse (p : Prompts) {pending lines : List String}
    (hpending : pending ≠ [] → isIncomplete ("\n".intercalate pending) = true)
    (hlines : pending ++ lines ≠ []) {prog : Program Token}
    (h : parse Session.entryLabel ("\n".intercalate (pending ++ lines)) = .ok prog) :
    ∃ front rest q r prompts, front ≠ [] ∧ pending ++ lines = front ++ rest ∧
      rest.length < lines.length ∧
      readFrom p ("\n".intercalate pending) (lines.map some)
        = ⟨.entry ("\n".intercalate front), prompts, rest.map some⟩ ∧
      parse Session.entryLabel ("\n".intercalate front) = .ok q ∧
      parse Session.entryLabel ("\n".intercalate rest) = .ok r ∧
      Program.bare prog = Program.bare (q ++ r) := by
  induction lines generalizing pending with
  | nil =>
    -- The pending lines spell a program, so they are not incomplete.
    rw [List.append_nil] at h hlines
    cases (hpending hlines).symm.trans (isIncomplete_of_ok h)
  | cons line lines ih =>
    have hassoc : pending ++ line :: lines = (pending ++ [line]) ++ lines := by simp
    have hsnoc : pending ++ [line] ≠ [] := by simp
    rw [List.map_cons, readFrom, feed, extend_intercalate hpending, hassoc]
    rw [hassoc] at h
    cases hincomplete : isIncomplete ("\n".intercalate (pending ++ [line])) with
    | true =>
      -- The line is added to the pending ones.
      obtain ⟨front, rest, q, r, prompts, hfront, happend, hlength, hread, hq, hr, hbare⟩ :=
        ih (fun _ => hincomplete) (by simp) h
      refine ⟨front, rest, q, r, p.choose ("\n".intercalate pending) :: prompts, hfront, happend,
        Nat.lt_succ_of_lt hlength, ?_, hq, hr, hbare⟩
      simp only [if_true, hread]
    | false =>
      -- The entry ends with the line, and the source can be cut behind it.
      obtain ⟨q, r, hq, hr, hbare⟩ := parse_split hsnoc hincomplete h
      exact ⟨pending ++ [line], lines, q, r, [p.choose ("\n".intercalate pending)], hsnoc, rfl,
        Nat.lt_succ_self _, rfl, hq, hr, hbare⟩

/-- Lines that spell a program are read as entries to the last line; the programs of the entries
make up the program of the lines. -/
theorem readMany_of_parse (p : Prompts) {bound : Nat} {lines : List String}
    (hbound : lines.length ≤ bound) {prog : Program Token}
    (h : parse Session.entryLabel ("\n".intercalate lines) = .ok prog) :
    ∃ (parts : List (List String × Program Token)) (readings : List Reading),
      (parts.map Prod.fst).flatten = lines ∧
      readMany p bound (lines.map some) = readings ++ [⟨.exhausted, [p.primary], []⟩] ∧
      readings.map Reading.ending = parts.map (fun x => .entry ("\n".intercalate x.1)) ∧
      (∀ x ∈ parts, x.1 ≠ [] ∧ parse Session.entryLabel ("\n".intercalate x.1) = .ok x.2) ∧
      Program.bare prog = Program.bare (parts.map Prod.snd).flatten := by
  induction bound generalizing lines prog with
  | zero =>
    obtain rfl : lines = [] := List.length_eq_zero_iff.mp (by omega)
    obtain rfl := Except.ok.inj ((parse_empty _).symm.trans h)
    exact ⟨[], [], rfl, rfl, rfl, by simp, rfl⟩
  | succ bound ih =>
    by_cases hnil : lines = []
    · obtain rfl := hnil
      obtain rfl := Except.ok.inj ((parse_empty _).symm.trans h)
      exact ⟨[], [], rfl, rfl, rfl, by simp, rfl⟩
    · obtain ⟨front, rest, q, r, prompts, hfront, rfl, hlength, hread, hq, hr, hbare⟩ :=
        readFrom_of_parse p (fun hpending => absurd rfl hpending) hnil h
      have hfirst : read p ((front ++ rest).map some)
          = ⟨.entry ("\n".intercalate front), prompts, rest.map some⟩ := hread
      obtain ⟨parts, readings, hflatten, hmany, hendings, hparts, hprog⟩ :=
        ih (show rest.length ≤ bound by omega) hr
      refine ⟨(front, q) :: parts, ⟨.entry ("\n".intercalate front), prompts, rest.map some⟩ ::
        readings, ?_, ?_, ?_, ?_, ?_⟩
      · rw [List.map_cons, List.flatten_cons, hflatten]
      · simp only [readMany, hfirst, reduceCtorEq, if_false, hmany, List.cons_append]
      · rw [List.map_cons, List.map_cons, hendings]
      · intro x hx
        rcases List.mem_cons.mp hx with rfl | hx
        · exact ⟨hfront, hq⟩
        · exact hparts x hx
      · rw [hbare, Program.bare_append, hprog, ← Program.bare_append]
        rfl

end Entry

/-! ### Running entries one after the other -/

theorem Stmt.runAll_append {τ : Type} (bound : Nat) (p q : List (Stmt τ)) (m : Machine τ) :
    runAll bound (p ++ q) m = (do runAll bound p; runAll bound q : Action τ Unit) m := by
  induction p generalizing m with
  | nil => rfl
  | cons s p ih =>
    rw [List.cons_append, runAll, runAll, Action.bind_apply, Action.bind_apply, Action.bind_apply]
    rcases s.run bound m with ⟨u | e | _, m'⟩
    · exact ih m'
    · rfl
    · rfl

namespace Session

/-- Runs entries in order, without the blank ones, up to the first that fails. -/
def runEntries (bound : Nat) : List String → Session Token → Option RunError × Session Token
  | [], s => (none, s)
  | entry :: rest, s =>
    if Text.allBlank entry then runEntries bound rest s
    else
      match s.runEntry bound entry with
      | (none, s') => runEntries bound rest s'
      | stopped => stopped

theorem opened_of_isOpen {s : Session Token} (h : s.isOpen = true) : s.opened = s :=
  if_pos h

theorem isOpen_opened (s : Session Token) : s.opened.isOpen = true := by
  rw [opened]
  split
  · assumption
  · rfl

/-- Running entries is running their programs, one behind the other, in the lasting frame. -/
theorem runEntries_eq_runAll (bound : Nat) (parts : List (String × Program Token))
    (hparts : ∀ x ∈ parts, parse entryLabel x.1 = .ok x.2) (s : Session Token) :
    (runEntries bound (parts.map Prod.fst) s).1
        = RunError.ofOutcome
            (Stmt.runAll bound (parts.map Prod.snd).flatten s.opened.machine).1 ∧
      (runEntries bound (parts.map Prod.fst) s).2.machine.out
        = (Stmt.runAll bound (parts.map Prod.snd).flatten s.opened.machine).2.out := by
  induction parts generalizing s with
  | nil =>
    refine ⟨rfl, ?_⟩
    show s.machine.out = s.opened.machine.out
    rw [opened]
    split <;> rfl
  | cons x parts ih =>
    obtain ⟨entry, prog⟩ := x
    have hentry : parse entryLabel entry = .ok prog := hparts (entry, prog) List.mem_cons_self
    have ih := ih fun x hx => hparts x (List.mem_cons_of_mem _ hx)
    rw [List.map_cons, List.map_cons, List.flatten_cons, runEntries]
    cases hblank : Text.allBlank entry with
    | true =>
      -- A blank entry is skipped, and its program has no statements.
      obtain rfl := Except.ok.inj ((parse_of_allBlank entryLabel hblank).symm.trans hentry)
      exact ih s
    | false =>
      simp only [Bool.false_eq_true, if_false, Stmt.runAll_append, Action.bind_apply, runEntry,
        hentry, execute]
      rcases Stmt.runAll bound prog s.opened.machine with ⟨u | e | _, m⟩
      · -- The lasting frame stays open for the entries behind.
        have hopen := opened_of_isOpen (s := { s.opened with machine := m }) (isOpen_opened s)
        have hrest := ih { s.opened with machine := m }
        rw [hopen] at hrest
        exact hrest
      · exact ⟨rfl, rfl⟩
      · exact ⟨rfl, rfl⟩

end Session

/-! ### The script and the conversation -/

/-- The failure without its mark. -/
def Failure.bare {τ : Type} (e : Failure τ) : Failure Unit := e.map fun _ => ()

/-- Outcomes that differ in marks give errors that differ in marks. -/
theorem RunError.ofOutcome_of_remark_eq {o o' : Outcome Token Unit}
    (h : o.remark (fun _ => ()) = o'.remark (fun _ => ())) :
    (ofOutcome o = none → ofOutcome o' = none) ∧
    (∀ e, ofOutcome o = some (.failure e) →
      ∃ e', ofOutcome o' = some (.failure e') ∧ e'.bare = e.bare) ∧
    (ofOutcome o = some .unfinished → ofOutcome o' = some .unfinished) := by
  cases o' with
  | done u' =>
    obtain ⟨u, rfl⟩ : ∃ u, o = .done u := by cases o <;> simp_all [Outcome.remark]
    simp [ofOutcome]
  | failed e' =>
    obtain ⟨e, rfl⟩ : ∃ e, o = .failed e := by cases o <;> simp_all [Outcome.remark]
    have hbare : e'.bare = e.bare := (Outcome.failed.inj h).symm
    simp [ofOutcome, hbare]
  | unfinished =>
    obtain rfl : o = .unfinished := by cases o <;> simp_all [Outcome.remark]
    simp [ofOutcome]

/-- A script runs its program in a frame of its own, which does not show in the answer. -/
theorem runSource_eq_runAll {file source : String} {prog : Program Token}
    (h : parse file source = .ok prog) (bound : Nat) (out : Writer) :
    runSource bound file source out =
      (RunError.ofOutcome (Stmt.runAll bound prog (Session.start out).opened.machine).1,
        (Stmt.runAll bound prog (Session.start out).opened.machine).2.out) := by
  have hframe := Action.inFrame_apply (Stmt.grows_runAll bound prog) .program
    (Session.start out).machine
  simp only [runSource, h, Session.interpret, hframe]
  rfl

/-- Lines that spell a program are the same to a conversation and to a script.  Typed in one by
one, they are all used up, in entries that each spell a program.  Running the entries that are not
blank, up to the first that fails, prints what the script prints and ends as the script does: if
it succeeds, so do all entries, and if it fails, the two failures differ in their marks only. -/
theorem conversation_agrees_with_script (p : Prompts) (file : String) (lines : List String)
    {prog : Program Token} (h : parse file ("\n".intercalate lines) = .ok prog) :
    ∃ (groups : List (List String)) (readings : List Entry.Reading),
      groups.flatten = lines ∧
      Entry.readAll p (lines.map some) = readings ++ [⟨.exhausted, [p.primary], []⟩] ∧
      readings.map Entry.Reading.ending = groups.map (fun g => .entry ("\n".intercalate g)) ∧
      (∀ g ∈ groups, g ≠ [] ∧ ∃ q, parse Session.entryLabel ("\n".intercalate g) = .ok q) ∧
      ∀ (bound : Nat) (out : Writer),
        let script := runSource bound file ("\n".intercalate lines) out
        let talk := (Session.start out).runEntries bound (groups.map ("\n".intercalate ·))
        talk.2.machine.out = script.2 ∧
        (script.1 = none → talk.1 = none) ∧
        (∀ e, script.1 = some (.failure e) →
          ∃ e', talk.1 = some (.failure e') ∧ e'.bare = e.bare) ∧
        (script.1 = some .unfinished → talk.1 = some .unfinished) := by
  -- The entries carry a label of their own, which shows in the marks only.
  obtain ⟨prog', hprog', hrelabel⟩ := parse_relabel h Session.entryLabel
  obtain ⟨parts, readings, hflatten, hmany, hendings, hparts, hbare⟩ :=
    Entry.readMany_of_parse p (show lines.length ≤ (lines.map some).length by simp) hprog'
  refine ⟨parts.map Prod.fst, readings, hflatten, hmany, ?_, ?_, fun bound out => ?_⟩
  · rw [hendings, List.map_map]
    rfl
  · intro g hg
    obtain ⟨x, hx, rfl⟩ := List.mem_map.mp hg
    exact ⟨(hparts x hx).1, x.2, (hparts x hx).2⟩
  · have htalk := Session.runEntries_eq_runAll bound
      (parts.map fun x => ("\n".intercalate x.1, x.2)) (fun y hy => by
        obtain ⟨x, hx, rfl⟩ := List.mem_map.mp hy
        exact (hparts x hx).2) (Session.start out)
    simp only [List.map_map, Function.comp_def] at htalk ⊢
    obtain ⟨hresult, hout⟩ := htalk
    -- The programs of the entries make up the script's, up to marks.
    obtain ⟨houtcome, hsame⟩ := Stmt.runAll_of_bare_eq bound (hrelabel.symm.trans hbare)
      (Session.start out).opened.machine
    rw [runSource_eq_runAll h, hresult, hout, hsame]
    exact ⟨rfl, RunError.ofOutcome_of_remark_eq houtcome⟩

/-- A block that is typed in over several lines, with a failure inside. -/
theorem conversation_agrees_with_script_block :
    (∃ prog, parse "block" ("\n".intercalate ["x = 2", "", "\x7b", "x", "y", "\x7d"])
      = .ok prog) ∧
    ∃ groups : List (List String),
      groups.flatten = ["x = 2", "", "\x7b", "x", "y", "\x7d"] ∧
      ∀ (bound : Nat) (out : Writer),
        ((Session.start out).runEntries bound (groups.map ("\n".intercalate ·))).2.machine.out
          = (runSource bound "block" ("\n".intercalate ["x = 2", "", "\x7b", "x", "y", "\x7d"])
              out).2 := by
  have hparse : (parse "block" ("\n".intercalate
      ["x = 2", "", "\x7b", "x", "y", "\x7d"])).toBool = true := by decide +kernel
  generalize hlines : ["x = 2", "", "\x7b", "x", "y", "\x7d"] = lines at hparse ⊢
  obtain ⟨prog, h⟩ := exists_of_toBool hparse
  obtain ⟨groups, readings, hflatten, -, -, -, hrun⟩ :=
    conversation_agrees_with_script ⟨"> ", ". "⟩ "block" lines h
  exact ⟨⟨prog, h⟩, groups, hflatten, fun bound out => (hrun bound out).1⟩

end ListCalc
