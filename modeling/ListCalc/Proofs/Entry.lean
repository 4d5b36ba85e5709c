/-
Entries partition the lines.

Lines are read one by one, under a prompt each, and joined to what is pending; an
entry is there as soon as more text could not complete it.  Whether a line is the
first one is told from the pending text being empty, which is right because a source
that is empty is never incomplete.

`Takes p block r` says what a reading `r` comes to if it uses up the lines `block`:
an entry is all of them, and none of its fronts is complete; at an interrupt, and at
the end of the input, all lines are still pending.

* `takes_readFrom` — a reading that goes on from pending lines;
* `takes_read` — a whole reading, and what it leaves of the input;
* `readings_partition` — all readings of an input, one after the other.
-/
import ListCalc.Proofs.Conversation

namespace ListCalc

/-- The prompts that are shown for `n` lines of an entry. -/
def Prompts.shown (p : Prompts) : Nat → List String
  | 0 => []
  | n + 1 => p.primary :: List.replicate n p.continuation

namespace Entry

/-- The source that is handed over, and whether the input goes on.  An interrupt hands over an
empty source. -/
def Ending.handed : Ending → String × Bool
  | entry text => (text, true)
  | interrupted => ("", true)
  | exhausted => ("", false)

/-- The interrupt, if the reading has ended with one. -/
def Reading.interrupts (r : Reading) : List (Option String) :=
  if r.ending = .interrupted then [none] else []

/-- The first lines, up to `n` of them, leave the source incomplete. -/
def Pending (lines : List String) (n : Nat) : Prop :=
  ∀ j, 1 ≤ j → j ≤ n → isIncomplete ("\n".intercalate (lines.take j)) = true

/-- The reading uses up the lines of the block. -/
inductive Takes (p : Prompts) (block : List String) (r : Reading) : Prop where
  /-- the lines together are the entry, and fewer of them were not -/
  | entry (handed : r.ending.handed = ("\n".intercalate block, true))
      (kept : r.ending ≠ .interrupted) (nonempty : block ≠ [])
      (pending : Pending block (block.length - 1))
      (whole : isIncomplete ("\n".intercalate block) = false)
      (prompts : r.prompts = p.shown block.length)
  /-- the lines were pending when the interrupt came -/
  | interrupted (handed : r.ending.handed = ("", true)) (dropped : r.ending = .interrupted)
      (pending : Pending block block.length) (prompts : r.prompts = p.shown (block.length + 1))
  /-- the lines were pending when the input ended -/
  | exhausted (handed : r.ending.handed = ("", false)) (rest : r.rest = [])
      (pending : Pending block block.length) (prompts : r.prompts = p.shown (block.length + 1))

/-! ### Pending lines -/

theorem pending_nil : Pending [] 0 := by
  intro j hpos hle
  omega

theorem Pending.all {lines : List String} (h : Pending lines lines.length)
    (hlines : lines ≠ []) : isIncomplete ("\n".intercalate lines) = true := by
  have hall := h lines.length (List.length_pos_iff.mpr hlines) (Nat.le_refl _)
  rwa [List.take_length] at hall

/-- Behind pending lines comes one more. -/
theorem Pending.append {lines : List String} (h : Pending lines lines.length) (line : String) :
    Pending (lines ++ [line]) lines.length := by
  intro j hpos hle
  rw [List.take_append_of_le_length hle]
  exact h j hpos hle

theorem Pending.snoc {lines : List String} (h : Pending lines lines.length) {line : String}
    (hline : isIncomplete ("\n".intercalate (lines ++ [line])) = true) :
    Pending (lines ++ [line]) (lines ++ [line]).length := by
  intro j hpos hle
  rcases Nat.lt_or_eq_of_le hle with hlt | rfl
  · refine h.append line j hpos ?_
    rw [List.length_append, List.length_singleton] at hlt
    omega
  · rwa [List.take_length]

/-- The prompt for the next line is the primary one just if there are no pending lines. -/
theorem shown_succ (p : Prompts) {lines : List String} (h : Pending lines lines.length) :
    p.shown lines.length ++ [p.choose ("\n".intercalate lines)] = p.shown (lines.length + 1) := by
  by_cases hlines : lines = []
  · rw [hlines]
    rfl
  · have htext : "\n".intercalate lines ≠ "" := by
      intro hempty
      have hincomplete := h.all hlines
      rw [hempty, isIncomplete_of_ok (parse_empty _)] at hincomplete
      cases hincomplete
    rw [Prompts.choose, if_neg htext]
    obtain ⟨first, more, rfl⟩ := List.exists_cons_of_ne_nil hlines
    rw [List.length_cons, Prompts.shown, Prompts.shown, List.cons_append, List.replicate_succ']

/-! ### Readings -/

/-- A reading goes on from pending lines: together with those that it reads, they are the block
of a reading that has shown their prompts too. -/
theorem takes_readFrom (p : Prompts) {lines : List String} (h : Pending lines lines.length)
    (script : List (Option String)) :
    ∃ block, script = block.map some ++ (readFrom p ("\n".intercalate lines) script).interrupts
        ++ (readFrom p ("\n".intercalate lines) script).rest ∧
      Takes p (lines ++ block) { readFrom p ("\n".intercalate lines) script with
        prompts := p.shown lines.length
          ++ (readFrom p ("\n".intercalate lines) script).prompts } := by
  have hshown := shown_succ p h
  induction script generalizing lines with
  | nil =>
    refine ⟨[], rfl, ?_⟩
    rw [List.append_nil]
    exact .exhausted rfl rfl h hshown
  | cons item script ih =>
    cases item with
    | none =>
      refine ⟨[], rfl, ?_⟩
      rw [List.append_nil]
      exact .interrupted rfl rfl h hshown
    | some line =>
      have hlength : (lines ++ [line]).length = lines.length + 1 := by simp
      rw [readFrom, feed, extend_intercalate h.all]
      cases hline : isIncomplete ("\n".intercalate (lines ++ [line])) with
      | true =>
        -- The line is pending as well, and its prompt is shown.
        have hmore := h.snoc hline
        obtain ⟨block, hscript, htakes⟩ := ih hmore (shown_succ p hmore)
        refine ⟨line :: block, congrArg _ hscript, ?_⟩
        rw [hlength, ← hshown, List.append_assoc, List.append_assoc] at htakes
        exact htakes
      | false =>
        refine ⟨[line], rfl, .entry rfl (fun hend => by cases hend) (by simp) ?_ hline ?_⟩
        · rw [hlength]
          exact h.append line
        · rw [hlength]
          exact hshown

/-- A reading uses up a block of lines, and the interrupt behind it if there is one. -/
theorem takes_read (p : Prompts) (script : List (Option String)) :
    ∃ block, script = block.map some ++ (read p script).interrupts ++ (read p script).rest ∧
      Takes p block (read p script) :=
  takes_readFrom p pending_nil script

theorem Ending.handed_snd_eq_false_iff {e : Ending} : e.handed.2 = false ↔ e = .exhausted := by
  cases e <;> simp [handed]

theorem Takes.rest_eq_nil {p : Prompts} {block : List String} {r : Reading} (h : Takes p block r)
    (hlast : r.ending.handed.2 = false) : r.rest = [] ∧ r.interrupts = [] := by
  cases h with
  | entry handed _ _ _ _ _ =>
    rw [handed] at hlast
    cases hlast
  | interrupted handed _ _ _ =>
    rw [handed] at hlast
    cases hlast
  | exhausted _ rest _ _ =>
    refine ⟨rest, ?_⟩
    rw [Reading.interrupts, Ending.handed_snd_eq_false_iff.mp hlast]
    rfl

/-- A reading that is not the last one uses up some of the input. -/
theorem Takes.length_pos {p : Prompts} {block : List String} {r : Reading} (h : Takes p block r)
    (hmore : r.ending.handed.2 = true) : 0 < (block.map some ++ r.interrupts).length := by
  rw [List.length_append, List.length_map]
  cases h with
  | entry _ _ nonempty _ _ _ => exact Nat.add_pos_left (List.length_pos_iff.mpr nonempty) _
  | interrupted _ dropped _ _ =>
    rw [Reading.interrupts, dropped]
    exact Nat.succ_pos _
  | exhausted handed _ _ _ =>
    rw [handed] at hmore
    cases hmore

/-- All readings of an input, the last of which finds it exhausted.  The bound needs to cover the
input only. -/
theorem exists_parts_readMany (p : Prompts) {bound : Nat} {script : List (Option String)}
    (hbound : script.length ≤ bound) :
    ∃ (parts : List (List String × Reading)) (pending : List String) (last : Reading),
      readMany p bound script = parts.map Prod.snd ++ [last] ∧
      script = parts.flatMap (fun x => x.1.map some ++ x.2.interrupts) ++ pending.map some ∧
      (∀ x ∈ parts, Takes p x.1 x.2 ∧ x.2.ending.handed.2 = true) ∧
      Takes p pending last ∧ last.ending.handed.2 = false := by
  induction bound generalizing script with
  | zero =>
    obtain rfl : script = [] := List.length_eq_zero_iff.mp (by omega)
    exact ⟨[], [], read p [], rfl, rfl, by simp, .exhausted rfl rfl pending_nil rfl, rfl⟩
  | succ bound ih =>
    obtain ⟨block, hscript, htakes⟩ := takes_read p script
    rw [readMany]
    cases hmore : (read p script).ending.handed.2 with
    | false =>
      obtain ⟨hrest, hinterrupts⟩ := htakes.rest_eq_nil hmore
      rw [hrest, hinterrupts, List.append_nil, List.append_nil] at hscript
      refine ⟨[], block, read p script, ?_, hscript, by simp, htakes, hmore⟩
      rw [if_pos (Ending.handed_snd_eq_false_iff.mp hmore)]
      rfl
    | true =>
      have hgoes : (read p script).ending ≠ .exhausted := by
        intro hend
        rw [hend] at hmore
        cases hmore
      have hlength := congrArg List.length hscript
      rw [List.length_append] at hlength
      have hpos := htakes.length_pos hmore
      obtain ⟨parts, pending, last, hreadings, hrest, hparts, hlast⟩ :=
        ih (show (read p script).rest.length ≤ bound by omega)
      refine ⟨(block, read p script) :: parts, pending, last, ?_, ?_,
        List.forall_mem_cons.mpr ⟨⟨htakes, hmore⟩, hparts⟩, hlast⟩
      · rw [if_neg hgoes, hreadings]
        rfl
      · rw [List.flatMap_cons, List.append_assoc, ← hrest]
        exact hscript

/-- **Entries partition the lines.**  A reading uses up a block of lines: an entry is these lines
joined, it is complete, and with fewer of them it was not; at an interrupt, for which an empty
source is handed over, and at the end of the input, the lines are still pending, each front of them
incomplete.  The first prompt is the primary one and all others are the one for continuations.
Readings one after the other, up to the one that finds the input exhausted, take up all of it in
order, line by line and interrupt by interrupt. -/
theorem readings_partition (p : Prompts) (script : List (Option String)) :
    (∃ block, script = block.map some ++ (read p script).interrupts ++ (read p script).rest ∧
      Takes p block (read p script)) ∧
    ∃ (parts : List (List String × Reading)) (pending : List String) (last : Reading),
      readAll p script = parts.map Prod.snd ++ [last] ∧
      script = parts.flatMap (fun x => x.1.map some ++ x.2.interrupts) ++ pending.map some ∧
      (∀ x ∈ parts, Takes p x.1 x.2 ∧ x.2.ending.handed.2 = true) ∧
      Takes p pending last ∧ last.ending.handed.2 = false :=
  ⟨takes_read p script, exists_parts_readMany p (Nat.le_refl script.length)⟩

end Entry

end ListCalc
