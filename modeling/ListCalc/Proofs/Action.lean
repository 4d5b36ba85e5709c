/-
What actions keep.

An action ends with an outcome and a state, and the state counts however the
action ended.  `Preserves P x` says that `x` leads from states with `P` to states
with `P`; the rules for sequences and for the two kinds of repetition carry a
property of one step over to a whole run.
-/
import ListCalc.Machine

namespace ListCalc

namespace Action

variable {τ α β : Type} {P : Machine τ → Prop}

/-! ### Sequences -/

@[simp] theorem pure_apply (a : α) (m : Machine τ) : (pure a : Action τ α) m = (.done a, m) := rfl

theorem bind_apply (x : Action τ α) (f : α → Action τ β) (m : Machine τ) :
    (x >>= f) m = match x m with
      | (.done a, m') => f a m'
      | (.failed e, m') => (.failed e, m')
      | (.unfinished, m') => (.unfinished, m') := rfl

/-- A name that may be bound is bound as if it had not been looked at before. -/
theorem refuseTaken_bindNew (id : Ident τ) (b : Binding τ) :
    (do refuseTaken id; bindNew id b) = bindNew id b := by
  funext m
  rw [bind_apply]
  simp only [refuseTaken, bindNew]
  by_cases htaken : m.names.isTaken id.name = true
  · simp only [if_pos htaken]
    rfl
  · simp only [if_neg htaken]

/-- The action leads from states with `P` to states with `P`, however it ends. -/
def Preserves (P : Machine τ → Prop) (x : Action τ α) : Prop :=
  ∀ m, P m → P (x m).2

theorem preserves_bind {x : Action τ α} {f : α → Action τ β} (hx : Preserves P x)
    (hf : ∀ a, Preserves P (f a)) : Preserves P (x >>= f) := by
  intro m hm
  have hm' := hx m hm
  rw [bind_apply]
  -- The second action runs only if the first one ends normally.
  rcases hxm : x m with ⟨_ | _ | _, m'⟩
  · rw [hxm] at hm'
    exact hf _ m' hm'
  · rw [hxm] at hm'
    exact hm'
  · rw [hxm] at hm'
    exact hm'

/-! ### Repetition -/

theorem forEach_cons (act : α → Action τ Unit) (a : α) (as : List α) :
    forEach act (a :: as) = (do act a; forEach act as) := by
  funext m
  rw [forEach, bind_apply]
  rcases act a m with ⟨_ | _ | _, _⟩ <;> rfl

theorem countUp_zero (act : Float → Action τ Unit) (stop step i : Float) :
    countUp act stop step 0 i = if i ≤ stop then ofOutcome .unfinished else pure () := by
  funext m
  rw [countUp]
  split <;> rfl

theorem countUp_succ (act : Float → Action τ Unit) (stop step : Float) (bound : Nat) (i : Float) :
    countUp act stop step (bound + 1) i
      = if i ≤ stop then (do act i; countUp act stop step bound (i + step)) else pure () := by
  funext m
  rw [countUp]
  split
  · rw [bind_apply]
    rcases act i m with ⟨_ | _ | _, _⟩ <;> rfl
  · rfl

/-- What one turn keeps, a run over a list keeps. -/
theorem preserves_forEach {act : α → Action τ Unit} {as : List α}
    (hact : ∀ a ∈ as, Preserves P (act a)) : Preserves P (forEach act as) := by
  induction as with
  | nil => exact fun m hm => hm
  | cons a rest ih =>
    obtain ⟨hfirst, hrest⟩ := List.forall_mem_cons.mp hact
    intro m hm
    have hm' := hfirst m hm
    rw [forEach]
    -- A turn that does not end normally is the last one.
    rcases ha : act a m with ⟨_ | _ | _, m'⟩
    · rw [ha] at hm'
      exact ih hrest m' hm'
    · rw [ha] at hm'
      exact hm'
    · rw [ha] at hm'
      exact hm'

/-- What one turn keeps, a run over numbers keeps. -/
theorem preserves_countUp {act : Float → Action τ Unit} (hact : ∀ i, Preserves P (act i))
    (stop step : Float) (bound : Nat) (i : Float) :
    Preserves P (countUp act stop step bound i) := by
  induction bound generalizing i with
  | zero =>
    -- No turn is left, whether or not the end is reached.
    intro m hm
    rw [countUp]
    split <;> exact hm
  | succ bound ih =>
    intro m hm
    have hm' := hact i m hm
    rw [countUp]
    split
    · rcases ha : act i m with ⟨_ | _ | _, m'⟩
      · rw [ha] at hm'
        exact ih (i + step) m' hm'
      · rw [ha] at hm'
        exact hm'
      · rw [ha] at hm'
        exact hm'
    · exact hm

end Action

end ListCalc
