/-
Evaluation of expressions.

A call of a function that the program defines puts the argument expressions,
unevaluated, in place of the parameters and evaluates the resulting body.  The
bound of `eval` limits how deep such calls may nest; an expression that needs
more is unfinished.
-/
import ListCalc.Binding
import ListCalc.Number.Literal
import ListCalc.Outcome

namespace ListCalc

variable {τ : Type}

/-- Applies an operator, given by its text, to two values. -/
def applyOperator (mark : τ) (op : String) (l r : Value) : Outcome τ Value :=
  match Operator.ofText? op with
  | none => .failed (.fault (.unknownOperator op))
  | some o =>
    match Value.broadcast o.onNumbers l r with
    | .ok v => .done v
    | .error m => .raise .invalidListLength "" mark (toString m.left ++ " != " ++ toString m.right)

/-- The number that a text spells. -/
def readNumber (mark : τ) (text : String) : Outcome τ Float :=
  match Number.read? text with
  | some x => .done x
  | none => .failed (.literal mark ("invalid float literal " ++ Text.quote text))

namespace Expr

mutual

/-- The value of an expression, where `apply` carries out the calls of defined functions. -/
def evalWith (σ : Names τ) (apply : Ident τ → List (Expr τ) → Outcome τ Value) :
    Expr τ → Outcome τ Value
  | name id =>
    match σ.value? id.name with
    | some v => .done v
    | none => .raise .undefinedVariable id.name id.mark ""
  | number m text => do
    let x ← readNumber m text
    return .scalar x
  | negative m text => do
    let x ← readNumber m text
    return .scalar (-x)
  | binary m op l r => do
    let a ← evalWith σ apply l
    let b ← evalWith σ apply r
    applyOperator m op a b
  | list _ es => do
    let vs ← evalAllWith σ apply es
    return .list vs
  | call f args =>
    match ListCalc.function? f.name with
    | none => apply f args
    | some g =>
      match args with
      | [a] => do
        let v ← evalWith σ apply a
        return v.map g
      | _ =>
        .raise .invalidArguments f.name f.mark ("expected 1 argument, got " ++ toString args.length)

/-- The values of some expressions, from the left. -/
def evalAllWith (σ : Names τ) (apply : Ident τ → List (Expr τ) → Outcome τ Value) :
    List (Expr τ) → Outcome τ (List Value)
  | [] => .done []
  | e :: es => do
    let v ← evalWith σ apply e
    let vs ← evalAllWith σ apply es
    return v :: vs

end

/-- Calls a defined function: its body, with the arguments in place of the parameters, goes to
`evalBody`. -/
def applyFunction (σ : Names τ) (evalBody : Expr τ → Outcome τ Value) (f : Ident τ)
    (args : List (Expr τ)) : Outcome τ Value :=
  match σ.function? f.name with
  | none => .raise .undefinedFunction f.name f.mark ""
  | some fn =>
    if args.length = fn.params.length then
      match fn.body.substitute σ (fn.params.zip args) with
      | .ok body => evalBody body
      | .error e => .failed (.runtime e)
    else
      .raise .invalidArguments f.name f.mark
        ("expected " ++ toString fn.params.length ++ " arguments, got " ++ toString args.length)

/-- The value of an expression, with calls of defined functions nested at most `bound` deep. -/
def eval (σ : Names τ) : Nat → Expr τ → Outcome τ Value
  | 0 => evalWith σ fun _ _ => .unfinished
  | bound + 1 => evalWith σ (applyFunction σ (eval σ bound))

end Expr

end ListCalc
