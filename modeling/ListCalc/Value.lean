/-
Values and arithmetic on them.

A value is a number or a list of values, nested to any depth.  An operator
applies to two values by broadcasting: a number meets every number of a list,
and two lists meet element by element and must be of one length.
-/
import ListCalc.Number.Power

namespace ListCalc

/-- What an expression evaluates to. -/
inductive Value where
  | scalar (x : Float)
  | list (elems : List Value)

namespace Value

instance : Inhabited Value := ⟨.list []⟩

mutual

/-- The value as text. -/
def render : Value → String
  | scalar x => Number.render x
  | list vs => "[" ++ ", ".intercalate (renderAll vs) ++ "]"

/-- The texts of some values. -/
def renderAll : List Value → List String
  | [] => []
  | v :: vs => v.render :: renderAll vs

end

mutual

/-- Applies `f` to every number in a value. -/
def map (f : Float → Float) : Value → Value
  | scalar x => scalar (f x)
  | list vs => list (mapAll f vs)

/-- Applies `f` to every number in some values. -/
def mapAll (f : Float → Float) : List Value → List Value
  | [] => []
  | v :: vs => map f v :: mapAll f vs

end

/-- The lengths of two lists that meet and differ. -/
structure Mismatch where
  left : Nat
  right : Nat
  deriving DecidableEq

mutual

/-- Applies `f` to two values with broadcasting, or gives the first two lists that do not fit. -/
def broadcast (f : Float → Float → Float) : Value → Value → Except Mismatch Value
  | scalar x, r => .ok (r.map (f x))
  | list ls, scalar y => .ok ((list ls).map (f · y))
  | list ls, list rs =>
    if ls.length = rs.length then do
      let vs ← broadcastAll f ls rs
      return list vs
    else .error ⟨ls.length, rs.length⟩

/-- Broadcasts element by element, from the left. -/
def broadcastAll (f : Float → Float → Float) :
    List Value → List Value → Except Mismatch (List Value)
  | l :: ls, r :: rs => do
    let v ← broadcast f l r
    let vs ← broadcastAll f ls rs
    return v :: vs
  | _, _ => .ok []

end

end Value

/-- An arithmetic operator. -/
inductive Operator where
  | plus
  | minus
  | times
  | divide
  | power
  deriving DecidableEq

namespace Operator

/-- The operator that a text names. -/
def ofText? : String → Option Operator
  | "+" => some plus
  | "-" => some minus
  | "*" => some times
  | "/" => some divide
  | "^" => some power
  | _ => none

/-- The operator on numbers.  Division by zero gives an infinity or no number. -/
def onNumbers : Operator → Float → Float → Float
  | plus => (· + ·)
  | minus => (· - ·)
  | times => (· * ·)
  | divide => (· / ·)
  | power => Number.power

end Operator

end ListCalc
