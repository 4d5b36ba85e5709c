/-
Running statements.

The bound limits how deep calls nest and how often a counting loop turns.  A
block runs in a frame of its own.  A loop has one frame for its variable and
another one for every turn of its body.  The variable of a counting loop advances
by repeated addition.  A loop over a list shows the body every element but the
last one.
-/
import ListCalc.Expr.Eval
import ListCalc.Machine
import ListCalc.Stmt

namespace ListCalc

variable {τ : Type}

namespace Expr

/-- The value of an expression in the current scope. -/
def evalNow (bound : Nat) (e : Expr τ) : Action τ Value :=
  Action.query fun σ => e.eval σ bound

/-- The value of an expression that bounds a loop and must be a number. -/
def evalNumber (bound : Nat) (e : Expr τ) : Action τ Float := do
  match ← e.evalNow bound with
  | .scalar x => return x
  | .list vs =>
    Action.raise .expectedScalar "" e.mark ("loop bound is " ++ (Value.list vs).render)

end Expr

namespace Stmt

/-- Declares a variable.  Whether the name is free is settled before the value is computed. -/
def runDeclare (bound : Nat) (x : Ident τ) (e : Expr τ) : Action τ Unit := do
  Action.refuseTaken x
  let v ← e.evalNow bound
  Action.bindNew x (.value v)

/-- The first parameter that has occurred before. -/
def repeatedParam? : List String → List (Ident τ) → Option (Ident τ)
  | _, [] => none
  | seen, p :: ps => if seen.contains p.name then some p else repeatedParam? (p.name :: seen) ps

/-- Defines a function.  Its parameters must differ. -/
def runDefine (f : Ident τ) (params : List (Ident τ)) (body : Expr τ) : Action τ Unit := do
  Action.refuseTaken f
  match repeatedParam? [] params with
  | some p =>
    Action.raise .redeclaration p.name p.mark ("duplicate parameter of " ++ Text.quote f.name)
  | none => Action.bindNew f (.function ⟨f.name, params.map Ident.name, body⟩)

/-- Prints the value of an expression. -/
def runPrint (bound : Nat) (mark : τ) (e : Expr τ) : Action τ Unit := do
  let v ← e.evalNow bound
  Action.printLine mark v.render

/-- Binds one name of an unpacking. -/
def runPair (bound : Nat) (pair : Expr τ × Expr τ) : Action τ Unit :=
  match pair.1 with
  | .name x => runDeclare bound x pair.2
  | e => Action.raise .expectedIdentifier "" e.mark ("got " ++ e.render)

/-- Binds names to values pair by pair.  What is bound before a pair that fails stays bound. -/
def runUnpack (bound : Nat) (mark : τ) (names values : Expr τ) : Action τ Unit :=
  match names, values with
  | .list _ xs, .list _ es =>
    if xs.length = es.length then Action.forEach (runPair bound) (xs.zip es)
    else
      Action.raise .invalidListLength "" mark
        (toString xs.length ++ " names for " ++ toString es.length ++ " values")
  | .list _ _, e =>
    Action.raise .expectedList "" e.mark ("right side of destructuring is " ++ e.render)
  | e, _ => Action.raise .expectedList "" e.mark ("left side of destructuring is " ++ e.render)

/-- Runs a counting loop around `body`. -/
def runCount (bound : Nat) (start stop : Expr τ) (var : Ident τ) (step : Expr τ)
    (body : Action τ Unit) : Action τ Unit := do
  let a ← start.evalNumber bound
  let b ← stop.evalNumber bound
  let s ← step.evalNumber bound
  Action.inFrame .loop do
    Action.bindNew var (.value (.scalar a))
    Action.countUp (fun i => do
      Action.assign var (.scalar i)
      Action.inFrame .block body) b s bound a

/-- Runs a loop over a list around `body`: the variable moves on after each turn. -/
def runEach (bound : Nat) (var : Ident τ) (source : Expr τ) (body : Action τ Unit) :
    Action τ Unit := do
  match ← source.evalNow bound with
  | .scalar x =>
    Action.raise .expectedList "" source.mark ("for-loop over " ++ (Value.scalar x).render)
  | .list [] => Action.raise .emptyList "" source.mark ""
  | .list (v :: vs) =>
    Action.inFrame .loop do
      Action.bindNew var (.value v)
      Action.forEach (fun w => do
        Action.inFrame .block body
        Action.assign var w) vs

mutual

/-- Runs a statement. -/
def run (bound : Nat) : Stmt τ → Action τ Unit
  | declare _ x e => runDeclare bound x e
  | define f params body => runDefine f params body
  | print m e => runPrint bound m e
  | count _ a b i s body => runCount bound a b i s (runAll bound body)
  | each _ i e body => runEach bound i e (runAll bound body)
  | block _ body => Action.inFrame .block (runAll bound body)
  | unpack m names values => runUnpack bound m names values

/-- Runs statements in order, up to the first that fails. -/
def runAll (bound : Nat) : List (Stmt τ) → Action τ Unit
  | [] => Action.pure ()
  | s :: ss => do
    run bound s
    runAll bound ss

end

end Stmt

end ListCalc
