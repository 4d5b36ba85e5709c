/-
Outcomes.

A computation with a bound on its steps is done, has failed, or has not finished
within the bound.
-/
import ListCalc.Failure

namespace ListCalc

/-- How a bounded computation ends. -/
inductive Outcome (τ α : Type) where
  | done (a : α)
  | failed (e : Failure τ)
  | unfinished

namespace Outcome

variable {τ α β : Type}

/-- Goes on with the value of a computation that is done. -/
protected def bind : Outcome τ α → (α → Outcome τ β) → Outcome τ β
  | done a, f => f a
  | failed e, _ => failed e
  | unfinished, _ => unfinished

instance : Monad (Outcome τ) where
  pure := done
  bind := Outcome.bind

/-- Fails with a runtime error. -/
def raise (kind : RuntimeError.Kind) (name : String) (mark : τ) (detail : String) : Outcome τ α :=
  failed (.runtime ⟨kind, name, mark, detail⟩)

end Outcome

end ListCalc
