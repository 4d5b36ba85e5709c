/-
Errors of the parser.

An error has a kind, the token at which the parser gave up, and sometimes what
should have stood there.  An error of kind `cutShort` says no more than that the
source ended too early: more text could still complete it.
-/
import ListCalc.Text.Quoted
import ListCalc.Token

namespace ListCalc

/-- How parsing can fail. -/
inductive ParseError.Kind where
  /-- the source ended inside a statement -/
  | cutShort
  /-- a minus sign without a number behind it -/
  | missingNumber
  /-- a token that starts nothing -/
  | unexpectedToken
  /-- a reserved word out of place -/
  | unexpectedKeyword
  /-- a name was needed -/
  | expected
  /-- some token was needed, and another one stood there -/
  | expectedInstead
  | other (code : Int)
  deriving DecidableEq

/-- The number of a failure. -/
def ParseError.Kind.ofCode : Int → ParseError.Kind
  | 0 => cutShort
  | 1 => missingNumber
  | 2 => unexpectedToken
  | 3 => unexpectedKeyword
  | 4 => expected
  | 5 => expectedInstead
  | n => other n

/-- A failure to parse, with the token at which it arose. -/
structure ParseError where
  kind : ParseError.Kind
  token : Token
  expected : String
  deriving DecidableEq

namespace ParseError

/-- The failure in words, behind its place. -/
def message (e : ParseError) : String :=
  e.token.report <| match e.kind with
    | .cutShort =>
      "unexpected end of tokens" ++ if e.expected = "" then "" else ", expected " ++ e.expected
    | .missingNumber => "missing literal after '-'"
    | .unexpectedToken => "unexpected token " ++ Text.quote e.token.text
    | .unexpectedKeyword => "unexpected keyword " ++ Text.quote e.token.text
    | .expected => "expected " ++ e.expected
    | .expectedInstead => "expected " ++ e.expected ++ ", got " ++ Text.quote e.token.text
    | .other _ => "syntax error"

/-- More text could complete the source. -/
def isIncomplete (e : ParseError) : Bool :=
  e.kind == .cutShort

end ParseError

end ListCalc
