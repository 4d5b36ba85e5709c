/-
Expressions.

Every node carries a mark of a type `τ`.  The parser marks a node with a token,
so that errors can say where they arose; nothing else depends on the marks.
-/

namespace ListCalc

/-- A name and the mark of where it was written. -/
structure Ident (τ : Type) where
  mark : τ
  name : String
  deriving Inhabited

/-- An expression over numbers and nested lists. -/
inductive Expr (τ : Type) where
  /-- a variable or a constant -/
  | name (id : Ident τ)
  /-- a number, kept as its text -/
  | number (mark : τ) (text : String)
  /-- a number behind a minus sign, kept as the text without the sign -/
  | negative (mark : τ) (text : String)
  /-- two operands joined by an operator, kept as its text -/
  | binary (mark : τ) (op : String) (left right : Expr τ)
  /-- a function applied to arguments -/
  | call (callee : Ident τ) (args : List (Expr τ))
  /-- a list of elements -/
  | list (mark : τ) (elems : List (Expr τ))

namespace Expr

variable {τ : Type}

/-- The mark of an expression's outermost node. -/
def mark : Expr τ → τ
  | name id => id.mark
  | number m _ => m
  | negative m _ => m
  | binary m _ _ _ => m
  | call f _ => f.mark
  | list m _ => m

mutual

/-- The expression as text.  Every operator stands in parentheses of its own. -/
def render : Expr τ → String
  | name id => id.name
  | number _ text => text
  | negative _ text => "-" ++ text
  | binary _ op l r => "(" ++ l.render ++ " " ++ op ++ " " ++ r.render ++ ")"
  | call f args => f.name ++ "(" ++ ", ".intercalate (renderAll args) ++ ")"
  | list _ elems => "[" ++ ", ".intercalate (renderAll elems) ++ "]"

/-- The texts of some expressions. -/
def renderAll : List (Expr τ) → List String
  | [] => []
  | e :: es => e.render :: renderAll es

end

end Expr

end ListCalc
