/-
The parser of expressions.

Sums bind weaker than products and products weaker than powers; all operators
group to the left.  A minus sign belongs to the number behind it.  Line ends are
skipped inside parentheses and brackets and nowhere else.

The recursion is over a bound on the number of tokens left.  A parser with bound
zero has no tokens ahead and answers as it does at the end of the source, so the
bound never cuts a parse short.
-/
import ListCalc.Expr
import ListCalc.Parser

namespace ListCalc

/-- The name that a token spells. -/
def Token.toIdent (t : Token) : Ident Token := ⟨t, t.text⟩

namespace Parser

/-- How tightly an operator binds. -/
def precedence? : Kind → Option Nat
  | .plus => some 1
  | .minus => some 1
  | .times => some 2
  | .divide => some 2
  | .power => some 3
  | _ => none

/-- Reads expressions with commas between them, up to and including `close`. -/
def elements (inner : Parser (Expr Token)) (close : Kind) (bound : Nat) :
    Parser (List (Expr Token)) := do
  newlines
  items (do
    newlines
    let e ← inner
    newlines
    return e) close bound

/-- Reads an expression and the parenthesis that closes it. -/
def grouped (inner : Parser (Expr Token)) : Parser (Expr Token) := do
  newlines
  let e ← inner
  newlines
  let _ ← token .rparen
  return e

/-- Reads an operand: a number, a name, a call, a group or a list.  `inner` reads what stands
between brackets. -/
def operand (inner : Parser (Expr Token)) (bound : Nat) : Parser (Expr Token)
  | [] => unexpected []
  | t :: ts =>
    match t.kind with
    | .number => .ok (.number t t.text, ts)
    | .ident =>
      match ts with
      | [] => .ok (.name t.toIdent, [])
      | p :: rest =>
        if p.kind = .lparen then (Expr.call t.toIdent <$> elements inner .rparen bound) rest
        else .ok (.name t.toIdent, p :: rest)
    | .minus =>
      match ts with
      | [] => .error ⟨.missingNumber, some t, ""⟩
      | n :: rest =>
        if n.kind = .number then .ok (.negative t n.text, rest)
        else .error ⟨.missingNumber, some t, ""⟩
    | .lparen => grouped inner ts
    | .lbrack => (Expr.list t <$> elements inner .rbrack bound) ts
    | _ => unexpected (t :: ts)

/-- Reads the operators that bind at least as tightly as `least`, each with its right operand,
and joins them to `left`.  The right operand of an operator takes only tighter ones. -/
def operations (operandAbove : Nat → Parser (Expr Token)) (least : Nat) :
    Nat → Expr Token → Parser (Expr Token)
  | 0, left => pure left
  | bound + 1, left => fun
    | [] => .ok (left, [])
    | op :: ts =>
      match precedence? op.kind with
      | none => .ok (left, op :: ts)
      | some p =>
        if p < least then .ok (left, op :: ts)
        else (do
          let right ← operandAbove (p + 1)
          operations operandAbove least bound (.binary op op.text left right)) ts

/-- Reads an expression whose outermost operators bind at least as tightly as `least`, from at
most `bound` tokens. -/
def expression : Nat → Nat → Parser (Expr Token)
  | 0, _ => unexpected
  | bound + 1, least => do
    let left ← operand (expression bound 0) bound
    operations (expression bound) least bound left

end Parser

end ListCalc
