/-
Looking up keys.

Scopes, maps of single frames and disks are lists of keys with what they stand for, and
are read by looking a key up.  What is found after an entry has been added, other entries
have been taken out or what a key stands for has been replaced:

* `lookup_cons`, `lookup_filter`, `lookup_replace`.
-/

namespace ListCalc

variable {κ α : Type} [BEq κ] [LawfulBEq κ]

theorem lookup_cons [DecidableEq κ] (k key : κ) (a : α) (entries : List (κ × α)) :
    ((key, a) :: entries).lookup k = if k = key then some a else entries.lookup k := by
  rw [List.lookup_cons]
  by_cases h : k = key
  · rw [if_pos h, beq_iff_eq.mpr h]
  · rw [if_neg h, beq_eq_false_iff_ne.mpr h]

/-- Entries without those whose keys are not kept. -/
theorem lookup_filter (entries : List (κ × α)) (keep : κ → Bool) (k : κ) :
    (entries.filter fun e => keep e.1).lookup k = if keep k then entries.lookup k else none := by
  classical
  induction entries with
  | nil => simp
  | cons e entries ih =>
    obtain ⟨key, a⟩ := e
    rw [List.filter_cons, lookup_cons]
    by_cases hk : k = key
    · subst hk
      by_cases hkeep : keep k = true
      · rw [if_pos hkeep, if_pos hkeep, lookup_cons, if_pos rfl, if_pos rfl]
      · rw [if_neg hkeep, if_neg hkeep, ih, if_neg hkeep]
    · rw [if_neg hk, ← ih]
      split
      · rw [lookup_cons, if_neg hk]
      · rfl

/-- Another meaning for a key, in entries that may or may not have it. -/
theorem lookup_replace [DecidableEq κ] (entries : List (κ × α)) (key k : κ) (a : α) :
    (entries.map fun e => if e.1 == key then (key, a) else e).lookup k
      = if k = key then (entries.lookup key).map fun _ => a else entries.lookup k := by
  induction entries with
  | nil => simp
  | cons e entries ih =>
    obtain ⟨key', b⟩ := e
    simp only [List.map_cons, lookup_cons]
    by_cases hkey : key' = key
    · subst hkey
      simp only [beq_self_eq_true, if_true, lookup_cons, ih]
      by_cases hk : k = key' <;> simp [hk]
    · simp only [beq_eq_false_iff_ne.mpr hkey, Bool.false_eq_true, if_false, lookup_cons, ih]
      by_cases hk : k = key
      · subst hk
        simp [Ne.symm hkey]
      · simp [hk]

end ListCalc
