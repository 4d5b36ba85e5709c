/-
What names mean.

A name is bound to a value or to a function.  A function keeps its body
unevaluated; `substitute` puts argument expressions in place of the parameters.
-/
import ListCalc.Builtin
import ListCalc.Expr
import ListCalc.Failure
import ListCalc.Value

namespace ListCalc

/-- A function that a program defines. -/
structure Function (τ : Type) where
  name : String
  params : List String
  body : Expr τ

/-- The meaning of a name. -/
inductive Binding (τ : Type) where
  | value (v : Value)
  | function (f : Function τ)

/-- The names of a run with their meanings. -/
abbrev Names (τ : Type) := Scope (Binding τ)

namespace Names

variable {τ : Type}

/-- The value of a constant or a variable. -/
def value? (σ : Names τ) (name : String) : Option Value :=
  match constant? name with
  | some x => some (.scalar x)
  | none =>
    match σ.get? name with
    | some (.value v) => some v
    | _ => none

/-- The function that a program has defined under a name. -/
def function? (σ : Names τ) (name : String) : Option (Function τ) :=
  match σ.get? name with
  | some (.function f) => some f
  | _ => none

/-- No declaration may take the name: it is reserved or bound. -/
def isTaken (σ : Names τ) (name : String) : Bool :=
  isReserved name || σ.has name

end Names

namespace Expr

variable {τ : Type}

mutual

/-- The expression with `args` in place of the names they are listed under.  What is put in is
not looked at again; every other name must have a value. -/
def substitute (σ : Names τ) (args : List (String × Expr τ)) :
    Expr τ → Except (RuntimeError τ) (Expr τ)
  | name id =>
    match args.lookup id.name with
    | some arg => .ok arg
    | none =>
      match σ.value? id.name with
      | some _ => .ok (name id)
      | none => .error ⟨.undefinedVariable, id.name, id.mark, ""⟩
  | number m text => .ok (number m text)
  | negative m text => .ok (negative m text)
  | binary m op l r => do
    let l' ← substitute σ args l
    let r' ← substitute σ args r
    return binary m op l' r'
  | call f es => do
    let es' ← substituteAll σ args es
    return call f es'
  | list m es => do
    let es' ← substituteAll σ args es
    return list m es'

/-- Substitutes in each of some expressions, from the left. -/
def substituteAll (σ : Names τ) (args : List (String × Expr τ)) :
    List (Expr τ) → Except (RuntimeError τ) (List (Expr τ))
  | [] => .ok []
  | e :: es => do
    let e' ← substitute σ args e
    let es' ← substituteAll σ args es
    return e' :: es'

end

end Expr

end ListCalc
