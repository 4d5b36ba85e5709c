/-
The parser of statements and programs.

A statement is recognised by its first tokens; a name with a parenthesis behind
it and a list in brackets also by whether an equals sign follows on the same
line.  A comment runs to the end of its line.  Statements need no separator.

* `Parser.statement` — one statement, or none for a line end or a comment;
* `parseTokens` — the program that a list of tokens spells;
* `parse` — the program that a source spells.
-/
import ListCalc.Expr.Parser
import ListCalc.Stmt
import ListCalc.Token.Scan

namespace ListCalc

namespace Parser

/-- An equals sign stands between here and the end of the line. -/
def assignsOnLine (ts : List Token) : Bool :=
  (ts.takeWhile (·.kind != .newline)).any (·.kind == .assign)

/-- Reads an expression that takes in all operators. -/
def wholeExpression (bound : Nat) : Parser (Expr Token) :=
  expression bound 0

/-- Reads `name = value`. -/
def declaration (bound : Nat) : Parser (Stmt Token) := do
  let name ← ident "variable name"
  let eq ← token .assign
  let value ← wholeExpression bound
  return .declare eq name.toIdent value

/-- Reads `name(params) = body`. -/
def definition (bound : Nat) : Parser (Stmt Token) := do
  let name ← ident "function name"
  let _ ← token .lparen
  let params ← items (ident "parameter name") .rparen bound
  let _ ← token .assign
  let body ← wholeExpression bound
  return .define name.toIdent (params.map Token.toIdent) body

/-- Reads `[names] = [values]`; that both sides are lists is checked when it runs. -/
def unpacking (bound : Nat) : Parser (Stmt Token) := do
  let names ← wholeExpression bound
  let eq ← token .assign
  let values ← wholeExpression bound
  return .unpack eq names values

/-- Reads an expression to print; `first` is its first token. -/
def printing (first : Token) (bound : Nat) : Parser (Stmt Token) :=
  Stmt.print first <$> wholeExpression bound

/-- Reads the statements of a body up to and including the closing brace. -/
def bodyRest (statement : Parser (Option (Stmt Token))) : Nat → Parser (List (Stmt Token))
  | 0 => needed (Text.quote Kind.rbrace.text)
  | bound + 1 => fun
    | [] => needed (Text.quote Kind.rbrace.text) []
    | t :: ts =>
      if t.kind = .rbrace then .ok ([], ts)
      else (do
        let s ← statement
        let rest ← bodyRest statement bound
        return s.toList ++ rest) (t :: ts)

/-- Reads a body between braces; line ends may come first. -/
def body (statement : Parser (Option (Stmt Token))) (bound : Nat) :
    Parser (List (Stmt Token)) := do
  newlines
  let _ ← token .lbrace
  bodyRest statement bound

/-- The step of a loop that gives none, marked like the loop variable `var`. -/
def unitStep (var : Token) : Expr Token :=
  .number { var with kind := .number, text := "1.0" } "1.0"

/-- Reads the step of a loop, if there is one. -/
def stepOf (var : Token) (bound : Nat) : Parser (Expr Token) := do
  if ← nextIs .withWord then
    let _ ← token .withWord
    let _ ← token .stepWord
    wholeExpression bound
  else
    return unitStep var

/-- Reads a counting loop behind its first word. -/
def countLoop (first : Token) (statement : Parser (Option (Stmt Token))) (bound : Nat) :
    Parser (Stmt Token) := do
  let start ← wholeExpression bound
  let _ ← token .toWord
  let stop ← wholeExpression bound
  let _ ← token .asWord
  let var ← ident "loop variable"
  let step ← stepOf var bound
  let stmts ← body statement bound
  return .count first start stop var.toIdent step stmts

/-- Reads a loop over a list behind its first word. -/
def listLoop (first : Token) (statement : Parser (Option (Stmt Token))) (bound : Nat) :
    Parser (Stmt Token) := do
  let var ← ident "loop variable"
  let _ ← token .inWord
  let source ← wholeExpression bound
  let stmts ← body statement bound
  return .each first var.toIdent source stmts

/-- Reads a statement from at most `bound` tokens; a line end or a comment is none. -/
def statement : Nat → Parser (Option (Stmt Token))
  | 0 => unexpected
  | bound + 1 => fun
    | [] => unexpected []
    | t :: ts =>
      match t.kind with
      | .newline => .ok (none, ts)
      | .comment => .ok (none, ts.dropWhile (·.kind != .newline))
      | .ident =>
        if ts.head?.any (·.kind == .assign) then (some <$> declaration (bound + 1)) (t :: ts)
        else if ts.head?.any (·.kind == .lparen) && assignsOnLine ts then
          (some <$> definition (bound + 1)) (t :: ts)
        else (some <$> printing t (bound + 1)) (t :: ts)
      | .number => (some <$> printing t (bound + 1)) (t :: ts)
      | .lparen => (some <$> printing t (bound + 1)) (t :: ts)
      | .lbrack =>
        if assignsOnLine ts then (some <$> unpacking (bound + 1)) (t :: ts)
        else (some <$> printing t (bound + 1)) (t :: ts)
      | .fromWord => (some <$> countLoop t (statement bound) bound) ts
      | .forWord => (some <$> listLoop t (statement bound) bound) ts
      | .lbrace => ((some ∘ Stmt.block t) <$> body (statement bound) bound) (t :: ts)
      | _ => unexpected (t :: ts)

/-- Reads statements until no token is left. -/
def statements : Nat → Parser (Program Token)
  | 0 => pure []
  | bound + 1 => fun
    | [] => .ok ([], [])
    | t :: ts => (do
      let s ← statement (bound + 1)
      let rest ← statements bound
      return s.toList ++ rest) (t :: ts)

end Parser

/-- The tokens before the end of the source. -/
def tokensBeforeEnd (ts : List Token) : List Token :=
  ts.takeWhile (·.kind != .eof)

/-- The token that marks the end of the source: the first such token of the list, or else one
that stands right behind the last token. -/
def endToken (ts : List Token) : Token :=
  match ts.find? (·.kind == .eof) with
  | some t => t
  | none =>
    match ts.getLast? with
    | some t => ⟨.eof, "", { t.place with column := t.place.column + t.text.length }⟩
    | none => ⟨.eof, "", ⟨"", 0, 0⟩⟩

/-- The program that some tokens spell.  Nothing behind the end of the source is looked at. -/
def parseTokens (ts : List Token) : Except ParseError (Program Token) :=
  let inside := tokensBeforeEnd ts
  match Parser.statements inside.length inside with
  | .ok (p, _) => .ok p
  | .error c => .error (c.toError (endToken ts))

/-- Why a source spells no program. -/
inductive SourceError where
  | scan (e : ScanError)
  | parse (e : ParseError)
  deriving DecidableEq

namespace SourceError

/-- The failure in words, behind its place. -/
def message : SourceError → String
  | scan e => e.message
  | parse e => e.message

/-- More text could complete the source. -/
def isIncomplete : SourceError → Bool
  | scan _ => false
  | parse e => e.isIncomplete

end SourceError

/-- The program that a source spells. -/
def parse (file : String) (source : String) : Except SourceError (Program Token) :=
  match tokenize file source with
  | .error e => .error (.scan e)
  | .ok ts =>
    match parseTokens ts with
    | .error e => .error (.parse e)
    | .ok p => .ok p

end ListCalc
