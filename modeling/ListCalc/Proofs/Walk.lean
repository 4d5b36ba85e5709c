/-
The parser as a walk.

`Parser` reads tokens off the front of those before the end of the source, and a
bound on their number carries its recursion.  Here is the same grammar for a
cursor on the whole list of tokens, with nothing to bound it: every loop runs
until a token stops it, every token is looked up at the cursor, and the cursor
stays where it is when it is told to move past the last token.  Nothing in these
definitions says that a walk ends, that it keeps to the list, or that it stops at
the first end of the source.

A walk has two outcomes besides a value, an error of the parser and a look at a
token that does not exist (`Stop.outOfRange`); each of them leaves the cursor
somewhere.  A walk that goes on for ever has no outcome (`none`).

* `withEnd` — the tokens on which the cursor walks;
* `Walk.Phrase`, `Walk.Clause` — what a walk reads: the symbols of the grammar within a
  statement, and from statements on;
* `Walk.statement` — one statement, or none for a line end or a comment;
* `Walk.program` — statements up to the end of the source.
-/
import ListCalc.Stmt.Parser

namespace ListCalc

/-- The tokens with a mark of the end behind them, if they have none there. -/
def withEnd (ts : List Token) : List Token :=
  match ts.getLast? with
  | none => [⟨.eof, "", ⟨"", 0, 0⟩⟩]
  | some t =>
    if t.kind = .eof then ts
    else ts ++ [⟨.eof, "", { t.place with column := t.place.column + t.text.length }⟩]

/-- Why a walk stops short. -/
inductive Stop where
  | error (e : ParseError)
  /-- a look at a token that does not exist -/
  | outOfRange

/-- A walk along a list of tokens; the state is the cursor. -/
abbrev Walk := ReaderT (List Token) (ExceptT Stop (StateT Nat Option))

namespace Walk

variable {α : Type}

/-! ### The cursor -/

/-- The token at the cursor. -/
def current : Walk Token := fun ts pos =>
  match ts[pos]? with
  | some t => some (.ok t, pos)
  | none => some (.error .outOfRange, pos)

/-- The token behind the one at the cursor, or else the last one. -/
def ahead : Walk Token := fun ts pos =>
  match ts[if pos + 1 < ts.length then pos + 1 else ts.length - 1]? with
  | some t => some (.ok t, pos)
  | none => some (.error .outOfRange, pos)

/-- Moves the cursor by one token, but not past the last one. -/
def advance : Walk Unit := fun ts pos =>
  some (.ok (), if pos < ts.length - 1 then pos + 1 else pos)

/-- The token at the cursor is of kind `k`. -/
def nextIs (k : Kind) : Walk Bool := do
  return (← current).kind == k

/-- An equals sign stands between the cursor and the end of the line. -/
def assignsAhead : Walk Bool := fun ts pos =>
  let line := (ts.drop pos).takeWhile fun t => t.kind != .newline && t.kind != .eof
  some (.ok (line.any (·.kind == .assign)), pos)

/-! ### Errors -/

/-- Gives up at the cursor: the walk is cut short at the end of the source, and fails with the
kind `otherwise` elsewhere. -/
def fail (otherwise : Token → ParseError.Kind) (what : String) : Walk α := do
  let t ← current
  throw (.error ⟨if t.kind = .eof then .cutShort else otherwise t, t, what⟩)

/-- Nothing can start here. -/
def unexpected : Walk α :=
  fail (fun t => if t.kind.isKeyword then .unexpectedKeyword else .unexpectedToken) ""

/-! ### Single tokens -/

/-- Moves past a token of kind `k`, which is named `what`; another token is a `fault`. -/
def take (k : Kind) (fault : ParseError.Kind) (what : String) : Walk Token := do
  let t ← current
  if t.kind = k then
    advance
    return t
  else
    fail (fun _ => fault) what

/-- Moves past a token of kind `k`. -/
def expect (k : Kind) : Walk Token :=
  take k .expectedInstead (Text.quote k.text)

/-- Moves past a name, which has the role `what`. -/
def ident (what : String) : Walk Token :=
  take .ident .expected what

/-! ### Expressions -/

/-- What stands in a statement: expressions and their parts, names, and what is skipped. -/
inductive Phrase : Type → Type where
  /-- line ends -/
  | newlines : Phrase Unit
  /-- all that is left of a line -/
  | comment : Phrase Unit
  /-- an expression whose outermost operators bind at least as tightly as `least` -/
  | expression (least : Nat) : Phrase (Expr Token)
  /-- operators that bind at least as tightly as `least`, each with its right operand; they are
  joined to `left` -/
  | operations (least : Nat) (left : Expr Token) : Phrase (Expr Token)
  /-- a number, a name, a call, a group or a list -/
  | operand : Phrase (Expr Token)
  /-- an expression and the parenthesis that closes it -/
  | grouped : Phrase (Expr Token)
  /-- expressions with commas between them, up to and including `close` -/
  | elements (close : Kind) : Phrase (List (Expr Token))
  /-- the expressions behind those that have been read -/
  | elementsFrom (close : Kind) (read : List (Expr Token)) : Phrase (List (Expr Token))
  /-- names with commas between them, up to and including a parenthesis, behind those that have
  been read -/
  | paramsFrom (read : List Token) : Phrase (List Token)

/-- Reads a phrase. -/
def Phrase.walk {α : Type} : Phrase α → Walk α
  | newlines => do
    if ← nextIs .newline then
      advance
      newlines |>.walk
    else
      return ()
  | comment => do
    let t ← current
    if t.kind = .newline ∨ t.kind = .eof then
      return ()
    else
      advance
      comment |>.walk
  | expression least => do
    let left ← operand |>.walk
    operations least left |>.walk
  | operations least left => do
    let op ← current
    match Parser.precedence? op.kind with
    | none => return left
    | some p =>
      if p < least then
        return left
      else
        advance
        let right ← expression (p + 1) |>.walk
        operations least (.binary op op.text left right) |>.walk
  | operand => do
    let t ← current
    match t.kind with
    | .number =>
      advance
      return .number t t.text
    | .ident =>
      if (← ahead).kind = .lparen then
        advance
        advance
        let args ← elements .rparen |>.walk
        return .call t.toIdent args
      else
        advance
        return .name t.toIdent
    | .minus =>
      if (← ahead).kind = .number then
        advance
        let n ← current
        advance
        return .negative t n.text
      else
        throw (.error ⟨.missingNumber, t, ""⟩)
    | .lparen =>
      advance
      grouped |>.walk
    | .lbrack =>
      advance
      let es ← elements .rbrack |>.walk
      return .list t es
    | _ => unexpected
  | grouped => do
    newlines |>.walk
    let e ← expression 0 |>.walk
    newlines |>.walk
    let _ ← expect .rparen
    return e
  | elements close => do
    newlines |>.walk
    elementsFrom close [] |>.walk
  | elementsFrom close read => do
    if ← nextIs close then
      advance
      return read
    else
      -- Before the first expression stands no comma.
      unless read = [] do
        let _ ← expect .comma
        newlines |>.walk
      let e ← expression 0 |>.walk
      newlines |>.walk
      elementsFrom close (read ++ [e]) |>.walk
  | paramsFrom read => do
    if ← nextIs .rparen then
      advance
      return read
    else
      unless read = [] do
        let _ ← expect .comma
      let t ← ident "parameter name"
      paramsFrom (read ++ [t]) |>.walk
partial_fixpoint

/-! ### Statements -/

/-- Reads `name = value`. -/
def declaration : Walk (Stmt Token) := do
  let name ← ident "variable name"
  let eq ← expect .assign
  let value ← (Phrase.expression 0).walk
  return .declare eq name.toIdent value

/-- Reads `name(params) = body`. -/
def definition : Walk (Stmt Token) := do
  let name ← ident "function name"
  let _ ← expect .lparen
  let params ← (Phrase.paramsFrom []).walk
  let _ ← expect .assign
  let body ← (Phrase.expression 0).walk
  return .define name.toIdent (params.map Token.toIdent) body

/-- Reads `[names] = [values]`. -/
def unpacking : Walk (Stmt Token) := do
  let names ← (Phrase.expression 0).walk
  let eq ← expect .assign
  let values ← (Phrase.expression 0).walk
  return .unpack eq names values

/-- Reads an expression to print. -/
def printing : Walk (Stmt Token) := do
  let first ← current
  let e ← (Phrase.expression 0).walk
  return .print first e

/-- Reads the step of a loop, if there is one. -/
def stepOf (var : Token) : Walk (Expr Token) := do
  if ← nextIs .withWord then
    advance
    let _ ← expect .stepWord
    (Phrase.expression 0).walk
  else
    return Parser.unitStep var

/-- A statement, and what consists of statements. -/
inductive Clause : Type → Type where
  /-- a statement; a line end or a comment is none -/
  | statement : Clause (Option (Stmt Token))
  /-- a counting loop -/
  | countLoop : Clause (Stmt Token)
  /-- a loop over a list -/
  | listLoop : Clause (Stmt Token)
  /-- a body between braces; line ends may come first -/
  | body : Clause (List (Stmt Token))
  /-- the statements of a body up to and including the closing brace, behind those that have been
  read -/
  | bodyFrom (read : List (Stmt Token)) : Clause (List (Stmt Token))
  /-- statements until the cursor is at the end of the source, behind those that have been read -/
  | programFrom (read : Program Token) : Clause (Program Token)

/-- Reads a clause. -/
def Clause.walk {α : Type} : Clause α → Walk α
  | statement => do
    let t ← current
    match t.kind with
    | .newline =>
      advance
      return none
    | .comment =>
      Phrase.comment.walk
      return none
    | .ident =>
      if (← ahead).kind = .assign then
        some <$> declaration
      else if (← ahead).kind = .lparen ∧ (← assignsAhead) then
        some <$> definition
      else
        some <$> printing
    | .number => some <$> printing
    | .lparen => some <$> printing
    | .lbrack =>
      if ← assignsAhead then
        some <$> unpacking
      else
        some <$> printing
    | .fromWord => some <$> (countLoop |>.walk)
    | .forWord => some <$> (listLoop |>.walk)
    | .lbrace =>
      let stmts ← body |>.walk
      return some (.block t stmts)
    | _ => unexpected
  | countLoop => do
    let first ← current
    advance
    let start ← (Phrase.expression 0).walk
    let _ ← expect .toWord
    let stop ← (Phrase.expression 0).walk
    let _ ← expect .asWord
    let var ← ident "loop variable"
    let step ← stepOf var
    let stmts ← body |>.walk
    return .count first start stop var.toIdent step stmts
  | listLoop => do
    let first ← current
    advance
    let var ← ident "loop variable"
    let _ ← expect .inWord
    let source ← (Phrase.expression 0).walk
    let stmts ← body |>.walk
    return .each first var.toIdent source stmts
  | body => do
    Phrase.newlines.walk
    let _ ← expect .lbrace
    bodyFrom [] |>.walk
  | bodyFrom read => do
    let t ← current
    if t.kind = .rbrace then
      advance
      return read
    else if t.kind = .eof then
      throw (.error ⟨.cutShort, t, Text.quote Kind.rbrace.text⟩)
    else
      let s ← statement |>.walk
      bodyFrom (read ++ s.toList) |>.walk
  | programFrom read => do
    if ← nextIs .eof then
      return read
    else
      let s ← statement |>.walk
      programFrom (read ++ s.toList) |>.walk
partial_fixpoint

/-- Reads a statement; a line end or a comment is none. -/
def statement : Walk (Option (Stmt Token)) := Clause.statement.walk

/-- Reads a program. -/
def program : Walk (Program Token) := (Clause.programFrom []).walk

end Walk

end ListCalc
