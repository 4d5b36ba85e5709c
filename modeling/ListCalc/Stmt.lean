/-
Statements and programs.

A program is a list of statements.  The nodes carry marks as those of
expressions do: a declaration the mark of its equals sign, a loop or a block
that of its first word or brace, and a print statement that of the first token
of its expression.
-/
import ListCalc.Expr

namespace ListCalc

/-- A statement. -/
inductive Stmt (τ : Type) where
  /-- `name = value` -/
  | declare (mark : τ) (name : Ident τ) (value : Expr τ)
  /-- `name(params) = body` -/
  | define (name : Ident τ) (params : List (Ident τ)) (body : Expr τ)
  /-- an expression by itself, whose value is printed -/
  | print (mark : τ) (value : Expr τ)
  /-- a loop over the numbers from `start` to `stop`, `step` apart -/
  | count (mark : τ) (start stop : Expr τ) (var : Ident τ) (step : Expr τ) (body : List (Stmt τ))
  /-- a loop over the elements of a list -/
  | each (mark : τ) (var : Ident τ) (source : Expr τ) (body : List (Stmt τ))
  /-- statements in a scope of their own -/
  | block (mark : τ) (body : List (Stmt τ))
  /-- `[names] = [values]` -/
  | unpack (mark : τ) (names values : Expr τ)

namespace Stmt

variable {τ : Type}

/-- The mark of a statement. -/
def mark : Stmt τ → τ
  | declare m _ _ => m
  | define f _ _ => f.mark
  | print m _ => m
  | count m _ _ _ _ _ => m
  | each m _ _ _ => m
  | block m _ => m
  | unpack m _ _ => m

/-- A body between braces; an empty one stays on its line. -/
def renderBody (lines : List String) : String :=
  if lines.isEmpty then "\x7b\x7d"
  else "\x7b\n" ++ "\n".intercalate lines ++ "\n\x7d"

mutual

/-- The statement as text. -/
def render : Stmt τ → String
  | declare _ x e => x.name ++ " = " ++ e.render
  | define f params e =>
    f.name ++ "(" ++ ", ".intercalate (params.map Ident.name) ++ ") = " ++ e.render
  | print _ e => e.render
  | count _ a b i s body =>
    "from " ++ a.render ++ " to " ++ b.render ++ " as " ++ i.name ++ " with step " ++ s.render
      ++ " " ++ renderBody (renderAll body)
  | each _ i e body => "for " ++ i.name ++ " in " ++ e.render ++ " " ++ renderBody (renderAll body)
  | block _ body => renderBody (renderAll body)
  | unpack _ l r => l.render ++ " = " ++ r.render

/-- The texts of some statements. -/
def renderAll : List (Stmt τ) → List String
  | [] => []
  | s :: ss => s.render :: renderAll ss

end

end Stmt

/-- The statements of a source, in order. -/
abbrev Program (τ : Type) := List (Stmt τ)

namespace Program

variable {τ : Type}

/-- The program as text, a statement after the other. -/
def render (p : Program τ) : String :=
  "\n".intercalate (Stmt.renderAll p)

end Program

end ListCalc
