/-
Parsers.

A parser reads a value off the front of the tokens that stand before the end of
the source.  It returns the tokens it left, or a complaint.  A complaint names
the token at which the parser gave up, or none if the tokens ran out; only
`Complaint.toError` brings in the token that marks the end of the source.
-/
import ListCalc.ParseError

namespace ListCalc

/-- A failure to parse, relative to the tokens before the end of the source. -/
structure Complaint where
  kind : ParseError.Kind
  token? : Option Token
  expected : String
  deriving DecidableEq

/-- The failure, with `eof` as the token at the end of the source. -/
def Complaint.toError (eof : Token) (c : Complaint) : ParseError :=
  ⟨c.kind, c.token?.getD eof, c.expected⟩

/-- Reads a value off the front of a list of tokens. -/
def Parser (α : Type) : Type :=
  List Token → Except Complaint (α × List Token)

namespace Parser

variable {α β : Type}

/-- Reads nothing. -/
protected def pure (a : α) : Parser α := fun ts => .ok (a, ts)

/-- Reads with `p` and then with the parser that its value selects. -/
protected def bind (p : Parser α) (f : α → Parser β) : Parser β := fun ts =>
  match p ts with
  | .ok (a, rest) => f a rest
  | .error c => .error c

instance : Monad Parser where
  pure := Parser.pure
  bind := Parser.bind

@[simp]
theorem pure_apply (a : α) (ts : List Token) : (pure a : Parser α) ts = .ok (a, ts) := rfl

theorem bind_apply (p : Parser α) (f : α → Parser β) (ts : List Token) :
    (p >>= f) ts = match p ts with
      | .ok (a, rest) => f a rest
      | .error c => .error c := rfl

/-! ### Complaints -/

/-- Something that is needed does not stand here. -/
def needed (what : String) : Parser α
  | [] => .error ⟨.cutShort, none, what⟩
  | t :: _ => .error ⟨.expectedInstead, some t, what⟩

/-- Nothing can start here. -/
def unexpected : Parser α
  | [] => .error ⟨.cutShort, none, ""⟩
  | t :: _ =>
    .error ⟨if t.kind.isKeyword then .unexpectedKeyword else .unexpectedToken, some t, ""⟩

/-! ### Single tokens -/

/-- Whether the next token is of kind `k`; reads nothing. -/
def nextIs (k : Kind) : Parser Bool := fun ts =>
  .ok (ts.head?.any (·.kind == k), ts)

/-- Reads a token of kind `k`. -/
def token (k : Kind) : Parser Token
  | [] => needed (Text.quote k.text) []
  | t :: ts => if t.kind = k then .ok (t, ts) else needed (Text.quote k.text) (t :: ts)

/-- Reads a name, which has the role `what`. -/
def ident (what : String) : Parser Token
  | [] => .error ⟨.cutShort, none, what⟩
  | t :: ts => if t.kind = .ident then .ok (t, ts) else .error ⟨.expected, some t, what⟩

/-- Reads any number of line ends. -/
def newlines : Parser Unit := fun ts =>
  .ok ((), ts.dropWhile (·.kind == .newline))

/-! ### Sequences -/

/-- Reads the rest of a sequence whose first item has been read: a comma and an item each time,
up to and including `close`.  `bound` is at least the number of tokens left. -/
def moreItems (item : Parser α) (close : Kind) : Nat → Parser (List α)
  | 0 => needed (Text.quote Kind.comma.text)
  | bound + 1 => do
    if ← nextIs close then
      let _ ← token close
      return []
    else
      let _ ← token .comma
      let a ← item
      let rest ← moreItems item close bound
      return a :: rest

/-- Reads items with commas between them, up to and including `close`. -/
def items (item : Parser α) (close : Kind) (bound : Nat) : Parser (List α) := do
  if ← nextIs close then
    let _ ← token close
    return []
  else
    let a ← item
    let rest ← moreItems item close bound
    return a :: rest

end Parser

end ListCalc
