/-
Completion extends the line.

What can stand at the end of a line are the keywords, the reserved names and the names
that a session has bound.  No word is in two of these lists: a keyword is never scanned
as a name, and no way of binding a name takes a reserved one, also in an entry that fails
later on.  So whatever was typed in before, a session offers each word once.

A line is completed at its last run of word characters.  `LastRun line front word` says
what this run is: it is the longest one at the end, and `front` stands before it.

* `words_nodup` — the words of a session whose names are in order differ;
* `lastRun_lastWord` — the run at which a line is completed is the longest one;
* `Session.completions_extend` — both, for what a session offers after any entries.
-/
import Mathlib.Data.List.DropRight
import ListCalc.Entry
import ListCalc.Proofs.Orderly

namespace ListCalc

/-! ### Words of a session -/

theorem isReserved_iff_mem (w : String) : isReserved w = true ↔ w ∈ reservedNames := by
  simp only [isReserved, constant?, function?, Bool.or_eq_true, List.lookup_isSome_iff,
    reservedNames, List.mem_mergeSort, List.mem_append, List.mem_map, beq_iff_eq,
    eq_comm (a := w)]

theorem reservedNames_nodup : reservedNames.Nodup := by
  refine (List.mergeSort_perm _ _).nodup_iff.mpr ?_
  decide

namespace Session

variable {τ : Type} {s : Session τ}

theorem mem_names_iff (w : String) : w ∈ s.names ↔ s.isDefined w = true := by
  rw [names, Scope.names, List.mem_mergeSort, List.mem_map, isDefined, Scope.has_eq_true_iff]

/-- A word means something by itself, or because it was bound. -/
theorem mem_words_iff (w : String) :
    w ∈ s.words ↔ w ∈ keywordTexts ∨ isReserved w = true ∨ s.isDefined w = true := by
  rw [words, List.mem_append, List.mem_append, mem_names_iff, isReserved_iff_mem, or_assoc]

/-- No word is listed twice. -/
theorem words_nodup (h : s.machine.names.Orderly) : s.words.Nodup := by
  have hadmitted {w : String} (hw : w ∈ s.names) : IsName w ∧ isReserved w = false := by
    obtain ⟨b, hb⟩ := Option.isSome_iff_exists.mp ((mem_names_iff w).mp hw)
    exact ⟨(h.admitted_of_get? hb).isName, (h.admitted_of_get? hb).free⟩
  have hnames : s.names.Nodup := (List.mergeSort_perm _ _).nodup_iff.mpr h.tallies.nodup
  have hfixed : (keywordTexts ++ reservedNames).Nodup := by
    refine List.nodup_append.mpr ⟨by decide, reservedNames_nodup, ?_⟩
    rintro w hw _ hreserved rfl
    have hfree : ∀ w ∈ keywordTexts, isReserved w = false := by decide
    rw [← isReserved_iff_mem, hfree w hw] at hreserved
    cases hreserved
  refine List.nodup_append.mpr ⟨hfixed, hnames, ?_⟩
  rintro w hw _ hbound rfl
  obtain ⟨hname, hfree⟩ := hadmitted hbound
  rcases List.mem_append.mp hw with hw | hw
  · exact not_mem_keywordTexts hname hw
  · rw [← isReserved_iff_mem, hfree] at hw
    cases hw

end Session

/-! ### The run at the end of a line -/

/-- The line is `front` followed by `word`, which is its longest trailing run of word characters. -/
structure LastRun (line front word : String) : Prop where
  append : front ++ word = line
  run : ∀ c ∈ word.toList, isWordChar c = true
  longest : ∀ cs, cs <:+ line.toList → (∀ c ∈ cs, isWordChar c = true) → cs <:+ word.toList

theorem lastWord_eq_rtakeWhile (line : List Char) :
    lastWord line = line.rtakeWhile isWordChar := rfl

/-- A run at the end lies in the one that is taken. -/
theorem suffix_rtakeWhile {α : Type} {p : α → Bool} {l run : List α} (h : run <:+ l)
    (hrun : ∀ a ∈ run, p a = true) : run <:+ l.rtakeWhile p := by
  obtain ⟨front, rfl⟩ := h
  rw [List.rtakeWhile, List.reverse_append,
    List.takeWhile_append_of_pos (by simpa using hrun), List.reverse_append, List.reverse_reverse]
  exact List.suffix_append _ _

/-- The run at which a line is completed is the longest one. -/
theorem lastRun_lastWord (line : String) :
    LastRun line
      (String.ofList (line.toList.take (line.toList.length - (lastWord line.toList).length)))
      (String.ofList (lastWord line.toList)) where
  append := by
    rw [← String.toList_inj, String.toList_append, String.toList_ofList, String.toList_ofList,
      lastWord_eq_rtakeWhile]
    exact List.suffix_iff_eq_append.mp (List.rtakeWhile_suffix isWordChar line.toList)
  run c hc := by
    rw [String.toList_ofList, lastWord_eq_rtakeWhile] at hc
    exact List.mem_rtakeWhile_imp hc
  longest cs hcs hrun := by
    rw [String.toList_ofList, lastWord_eq_rtakeWhile]
    exact suffix_rtakeWhile hcs hrun

/-- The run is empty just if the line does not end in a word character. -/
theorem LastRun.eq_empty_iff {line front word : String} (h : LastRun line front word) :
    word = "" ↔ ∀ c ∈ line.toList.getLast?, isWordChar c = false := by
  constructor
  · rintro rfl c hc
    by_contra hword
    -- The last character alone would be a longer run.
    have hrun := h.longest [c] (List.singleton_suffix_iff_getLast?_eq_some.mpr hc)
      (List.forall_mem_singleton.mpr (by simpa using hword))
    exact absurd (List.suffix_nil.mp hrun) (List.cons_ne_nil c [])
  · intro hlast
    rw [← String.toList_eq_nil_iff]
    by_contra hne
    -- The line ends with the last character of the run.
    have hmem := List.getLast_mem hne
    have hend : line.toList.getLast? = some (word.toList.getLast hne) := by
      rw [← h.append, String.toList_append, List.getLast?_append_of_ne_nil _ hne,
        List.getLast?_eq_some_getLast hne]
    exact Bool.noConfusion ((h.run _ hmem).symm.trans (hlast _ hend))

/-! ### Completion -/

/-- The words that a run starts, in order, each put in place of the run. -/
theorem exists_completions_eq (line : String) (words : List String) :
    ∃ front word, LastRun line front word ∧ completions line words =
      if word = "" then []
      else (words.filter fun w => word.toList.isPrefixOf w.toList).map (front ++ ·) := by
  refine ⟨_, _, lastRun_lastWord line, ?_⟩
  rw [completions, String.toList_ofList]
  by_cases hword : lastWord line.toList = []
  · rw [if_pos (List.isEmpty_iff.mpr hword), hword, if_pos rfl]
  · rw [if_neg (by simpa using hword), if_neg (by simpa using hword)]

theorem nodup_completions (line : String) {words : List String} (h : words.Nodup) :
    (completions line words).Nodup := by
  obtain ⟨front, word, -, hcompletions⟩ := exists_completions_eq line words
  rw [hcompletions]
  split
  · exact List.nodup_nil
  · refine (h.filter _).map fun w w' hw => ?_
    rw [← String.toList_inj, String.toList_append, String.toList_append] at hw
    exact String.toList_inj.mp (List.append_cancel_left hw)

theorem prefix_of_mem_completions {line r : String} {words : List String}
    (h : r ∈ completions line words) : line.toList <+: r.toList := by
  obtain ⟨front, word, hrun, hcompletions⟩ := exists_completions_eq line words
  rw [hcompletions] at h
  split at h
  · cases h
  · obtain ⟨w, hw, rfl⟩ := List.mem_map.mp h
    have hstart := List.isPrefixOf_iff_prefix.mp (List.mem_filter.mp hw).2
    rw [← hrun.append, String.toList_append, String.toList_append]
    exact (List.prefix_append_right_inj _).mpr hstart

namespace Session

/-- **Completion extends the line and never repeats itself.**  After any entries, whether they were
run to their end, failed or were no programs, the words of a session differ.  A line that does not
end in a word character is not completed; any other line is, in the order of the words, by each word
that its last run starts, put in place of this run, so that the line itself comes first. -/
theorem completions_extend (out : Writer) (entries : List (Nat × String)) (line : String) :
    let s := entries.foldl (fun s e => (s.runEntry e.1 e.2).2) (start out)
    (∀ w, w ∈ s.words ↔ w ∈ keywordTexts ∨ isReserved w = true ∨ s.isDefined w = true) ∧
    s.words.Nodup ∧
    (∃ front word, LastRun line front word ∧
      (word = "" ↔ ∀ c ∈ line.toList.getLast?, isWordChar c = false) ∧
      completions line s.words =
        if word = "" then []
        else (s.words.filter fun w => word.toList.isPrefixOf w.toList).map (front ++ ·)) ∧
    (completions line s.words).Nodup ∧
    ∀ r ∈ completions line s.words, line.toList <+: r.toList := by
  intro s
  have huses : s = (entries.map fun e => Use.entry e.1 e.2).foldl use (start out) := by
    rw [List.foldl_map]
    rfl
  have hfrom : ∀ u ∈ entries.map (fun e => Use.entry e.1 e.2), u.FromSource := by
    intro u hu
    obtain ⟨e, -, rfl⟩ := List.mem_map.mp hu
    trivial
  have hnames := (orderly_foldl_use hfrom (s := start out) rfl Names.orderly_empty).2
  rw [← huses] at hnames
  have hwords := words_nodup hnames
  obtain ⟨front, word, hrun, hcompletions⟩ := exists_completions_eq line s.words
  exact ⟨mem_words_iff, hwords, ⟨front, word, hrun, hrun.eq_empty_iff, hcompletions⟩,
    nodup_completions line hwords, fun r hr => prefix_of_mem_completions hr⟩

end Session

example : completions "y = 2*t" (keywordTexts ++ ["tan", "total", "x"])
    = ["y = 2*to", "y = 2*tan", "y = 2*total"] := by
  decide

end ListCalc
