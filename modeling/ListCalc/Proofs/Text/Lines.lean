/-
The last lines of a text.

A text is some characters up to a line feed and a text behind it, or it has no line
feed: `line_induction` is the induction that follows this.  Counted by `lineCount`, a
text has as many lines as it has line feeds, and one more if characters stand behind the
last of them.  `Newest limit text kept` says what it is to keep the last lines of a text:
`kept` is the longest text at its end that has no more than `limit` lines.

* `newest_spec` — the text that a history keeps is the newest one in this sense;
* `newest_ofLines` — of lines that all end, what is kept are the last ones;
* `lines_ofLines` — lines that all end are read one by one.
-/
import Mathlib.Data.List.Infix
import ListCalc.History

namespace ListCalc.Text

/-! ### Lines one by one -/

theorem line_induction {P : List Char → Prop} (nil : P [])
    (last : ∀ cs, cs ≠ [] → '\n' ∉ cs → P cs)
    (line : ∀ cs rest, '\n' ∉ cs → P rest → P (cs ++ '\n' :: rest)) (cs : List Char) : P cs := by
  induction hn : cs.length using Nat.strong_induction_on generalizing cs with
  | _ n ih =>
    by_cases hmem : '\n' ∈ cs
    · obtain ⟨front, rest, rfl, hfront⟩ := List.eq_append_cons_of_mem hmem
      refine line front rest hfront (ih rest.length ?_ rest rfl)
      simp only [List.length_append, List.length_cons] at hn
      omega
    · by_cases hcs : cs = []
      · exact hcs ▸ nil
      · exact last cs hcs hmem

theorem pieces_line {cs : List Char} (hcs : '\n' ∉ cs) (rest : List Char) :
    pieces (cs ++ '\n' :: rest) = (cs ++ ['\n']) :: pieces rest := by
  induction cs with
  | nil => simp [pieces]
  | cons c cs ih =>
    rw [List.mem_cons, not_or] at hcs
    obtain ⟨hc, hcs⟩ := hcs
    rw [List.cons_append, pieces, if_neg (Ne.symm hc), ih hcs]
    rfl

theorem pieces_last {cs : List Char} (hne : cs ≠ []) (hcs : '\n' ∉ cs) : pieces cs = [cs] := by
  induction cs with
  | nil => exact absurd rfl hne
  | cons c cs ih =>
    rw [List.mem_cons, not_or] at hcs
    obtain ⟨hc, hcs⟩ := hcs
    rw [pieces, if_neg (Ne.symm hc)]
    by_cases hmore : cs = []
    · rw [hmore]
      rfl
    · rw [ih hmore hcs]

/-! ### Counting lines -/

/-- How many lines a text has.  Text behind the last line feed is a line too. -/
def lineCount (cs : List Char) : Nat :=
  cs.count '\n' + if cs.getLast?.all (· == '\n') then 0 else 1

@[simp] theorem lineCount_nil : lineCount [] = 0 := rfl

theorem lineCount_line {cs : List Char} (hcs : '\n' ∉ cs) (rest : List Char) :
    lineCount (cs ++ '\n' :: rest) = lineCount rest + 1 := by
  have hcount : (cs ++ '\n' :: rest).count '\n' = rest.count '\n' + 1 := by
    rw [List.count_append, List.count_eq_zero_of_not_mem hcs, List.count_cons_self, Nat.zero_add]
  rw [lineCount, lineCount, hcount]
  cases rest with
  | nil => simp
  | cons c rest =>
    have hlast : (cs ++ '\n' :: c :: rest).getLast? = (c :: rest).getLast? := by
      rw [List.append_cons, List.getLast?_append_of_ne_nil _ (List.cons_ne_nil c rest)]
    rw [hlast, Nat.add_right_comm]

theorem lineCount_last {cs : List Char} (hne : cs ≠ []) (hcs : '\n' ∉ cs) : lineCount cs = 1 := by
  have hlast : cs.getLast hne ≠ '\n' := fun h => hcs (h ▸ List.getLast_mem hne)
  rw [lineCount, List.count_eq_zero_of_not_mem hcs, List.getLast?_eq_some_getLast hne]
  simp [hlast]

theorem lineCount_eq_zero_iff {cs : List Char} : lineCount cs = 0 ↔ cs = [] := by
  induction cs using line_induction with
  | nil => simp
  | last cs hne hcs => simp [lineCount_last hne hcs, hne]
  | line cs rest hcs ih => simp [lineCount_line hcs]

theorem length_pieces (cs : List Char) : (pieces cs).length = lineCount cs := by
  induction cs using line_induction with
  | nil => rfl
  | last cs hne hcs => rw [pieces_last hne hcs, lineCount_last hne hcs, List.length_singleton]
  | line cs rest hcs ih => rw [pieces_line hcs, lineCount_line hcs, List.length_cons, ih]

theorem flatten_pieces (cs : List Char) : (pieces cs).flatten = cs := by
  induction cs using line_induction with
  | nil => rfl
  | last cs hne hcs => rw [pieces_last hne hcs, List.flatten_singleton]
  | line cs rest hcs ih => rw [pieces_line hcs, List.flatten_cons, ih, List.append_assoc]; rfl

/-! ### The last lines -/

/-- `kept` is the longest text at the end of `text` that has at most `limit` lines; it has as many
as there are. -/
structure Newest (limit : Nat) (text kept : List Char) : Prop where
  suffix : kept <:+ text
  lines : lineCount kept = min limit (lineCount text)
  longest : ∀ cs, cs <:+ text → lineCount cs ≤ limit → cs <:+ kept

/-- The last pieces of a text together. -/
def lastPieces (limit : Nat) (cs : List Char) : List Char :=
  ((pieces cs).drop ((pieces cs).length - limit)).flatten

theorem lastPieces_of_le {limit : Nat} {cs : List Char} (h : lineCount cs ≤ limit) :
    lastPieces limit cs = cs := by
  rw [lastPieces, length_pieces, Nat.sub_eq_zero_of_le h, List.drop_zero, flatten_pieces]

theorem lastPieces_line {limit : Nat} {cs : List Char} (hcs : '\n' ∉ cs) {rest : List Char}
    (h : limit ≤ lineCount rest) :
    lastPieces limit (cs ++ '\n' :: rest) = lastPieces limit rest := by
  rw [lastPieces, lastPieces, pieces_line hcs, List.length_cons, length_pieces,
    Nat.sub_add_comm h, List.drop_succ_cons]

theorem newest_self {limit : Nat} {cs : List Char} (h : lineCount cs ≤ limit) :
    Newest limit cs cs :=
  ⟨List.suffix_refl cs, (Nat.min_eq_right h).symm, fun _ hs _ => hs⟩

/-- A text at the end that does not lie behind the first line begins in this line. -/
theorem suffix_line_cases {cs rest s : List Char} (h : s <:+ cs ++ '\n' :: rest) :
    s <:+ rest ∨ ∃ front, front <:+ cs ∧ s = front ++ '\n' :: rest := by
  induction cs with
  | nil =>
    rcases List.suffix_cons_iff.mp h with rfl | h
    · exact .inr ⟨[], List.suffix_refl [], rfl⟩
    · exact .inl h
  | cons c cs ih =>
    rcases List.suffix_cons_iff.mp h with rfl | h
    · exact .inr ⟨c :: cs, List.suffix_refl _, rfl⟩
    · rcases ih h with h | ⟨front, hfront, rfl⟩
      · exact .inl h
      · exact .inr ⟨front, hfront.trans (List.suffix_cons c cs), rfl⟩

theorem newest_lastPieces (limit : Nat) (cs : List Char) :
    Newest limit cs (lastPieces limit cs) := by
  induction cs using line_induction with
  | nil =>
    rw [lastPieces_of_le (Nat.zero_le limit)]
    exact newest_self (Nat.zero_le limit)
  | last cs hne hcs =>
    have hcount := lineCount_last hne hcs
    cases limit with
    | succ limit =>
      rw [lastPieces_of_le (by omega)]
      exact newest_self (by omega)
    | zero =>
      have hnone : lastPieces 0 cs = [] := by
        rw [lastPieces, Nat.sub_zero, List.drop_length, List.flatten_nil]
      rw [hnone]
      refine ⟨List.nil_suffix, by simp, fun s hs hzero => ?_⟩
      rw [lineCount_eq_zero_iff.mp (Nat.le_zero.mp hzero)]
  | line cs rest hcs ih =>
    by_cases h : lineCount (cs ++ '\n' :: rest) ≤ limit
    · rw [lastPieces_of_le h]
      exact newest_self h
    · have hcount := lineCount_line hcs rest
      rw [lastPieces_line hcs (by omega)]
      refine ⟨ih.suffix.trans ?_, ?_, fun s hs hlimit => ?_⟩
      · exact (List.suffix_cons _ _).trans (List.suffix_append _ _)
      · rw [ih.lines]
        omega
      · rcases suffix_line_cases hs with hs | ⟨front, hfront, rfl⟩
        · exact ih.longest s hs hlimit
        · -- A text that reaches into the first line has too many lines.
          have hnot : '\n' ∉ front := fun hmem => hcs (hfront.subset hmem)
          rw [lineCount_line hnot] at hlimit
          omega

theorem toList_newest (limit : Nat) (text : String) :
    (newest limit text).toList = lastPieces limit text.toList := by
  simp only [newest, linesWithEnds, String.toList_join, List.length_map, ← List.map_drop,
    List.flatMap_map, String.toList_ofList, List.flatMap_id', lastPieces]

/-- A history keeps the longest text at the end that has no more lines than its limit. -/
theorem newest_spec (limit : Nat) (text : String) :
    Newest limit text.toList (newest limit text).toList := by
  rw [toList_newest]
  exact newest_lastPieces limit text.toList

/-! ### Lines that all end -/

/-- Lines as a text, each of them with a line feed behind it. -/
def ofLines (ls : List String) : String := String.join (ls.map (· ++ "\n"))

theorem toList_ofLines (ls : List String) :
    (ofLines ls).toList = (ls.map (·.toList ++ ['\n'])).flatten := by
  rw [ofLines, String.toList_join, List.flatMap_map, List.flatMap_def]
  simp only [String.toList_append]
  rfl

theorem pieces_ofLines {ls : List String} (h : ∀ l ∈ ls, '\n' ∉ l.toList) :
    pieces (ofLines ls).toList = ls.map (·.toList ++ ['\n']) := by
  rw [toList_ofLines]
  induction ls with
  | nil => rfl
  | cons l ls ih =>
    obtain ⟨hl, hls⟩ := List.forall_mem_cons.mp h
    rw [List.map_cons, List.flatten_cons, ← List.append_cons, pieces_line hl, ih hls]

/-- Of lines that all end, the last ones are kept. -/
theorem newest_ofLines {ls : List String} (h : ∀ l ∈ ls, '\n' ∉ l.toList) (limit : Nat) :
    newest limit (ofLines ls) = ofLines (ls.drop (ls.length - limit)) := by
  rw [← String.toList_inj, toList_newest, lastPieces, pieces_ofLines h, List.length_map,
    ← List.map_drop, toList_ofLines]

theorem eq_newline_of_getLast?_ofLines (ls : List String) :
    ∀ c ∈ (ofLines ls).toList.getLast?, c = '\n' := by
  rw [toList_ofLines]
  induction ls with
  | nil => simp
  | cons l ls ih =>
    rw [List.map_cons, List.flatten_cons]
    intro c hc
    rw [List.getLast?_append] at hc
    cases hlast : ((ls.map (·.toList ++ ['\n'])).flatten).getLast? with
    | none =>
      rw [hlast, Option.none_or, List.getLast?_concat] at hc
      exact (Option.some.inj hc).symm
    | some c' =>
      rw [hlast, Option.some_or] at hc
      exact Option.some.inj hc ▸ ih c' hlast

theorem withoutEnd_line {cs : List Char} (h : cs.getLast? ≠ some '\r') :
    withoutEnd (cs ++ ['\n']) = cs := by
  have hreverse : (cs ++ ['\n']).reverse = '\n' :: cs.reverse := List.reverse_concat
  rw [← List.head?_reverse] at h
  rw [withoutEnd, hreverse]
  split
  · next heq =>
    rw [(List.cons_eq_cons.mp heq).2] at h
    exact absurd rfl h
  · next heq =>
    rw [← (List.cons_eq_cons.mp heq).2, List.reverse_reverse]
  · next hno => exact absurd rfl (hno _)

/-- Lines that all end are read one by one, if no carriage return can be taken for a part of an
end. -/
theorem lines_ofLines {ls : List String} (h : ∀ l ∈ ls, '\n' ∉ l.toList)
    (hr : ∀ l ∈ ls, l.toList.getLast? ≠ some '\r') : lines (ofLines ls) = ls := by
  rw [lines, pieces_ofLines h, List.map_map]
  refine (List.map_congr_left fun l hl => ?_).trans (List.map_id ls)
  rw [Function.comp_apply, withoutEnd_line (hr l hl), String.ofList_toList]
  rfl

end ListCalc.Text
