/-
Tokens of the calculator language.

A token has a kind, the text it stands for and the place where it starts.  The
text of a number is kept in canonical decimal form; the text of every other
token is what the source holds.

* `Kind` — the kinds, with `Kind.code` and `Kind.ofCode` between them and their
  numbers;
* `Place` — a file label, a line and a column;
* `Token` — the three together.
-/

namespace ListCalc

/-- What a token is.  `other` stands for a number that names no kind. -/
inductive Kind where
  | illegal
  | eof
  | comment
  | newline
  | ident
  | number
  | assign
  | plus
  | minus
  | times
  | divide
  | power
  | lparen
  | lbrack
  | lbrace
  | comma
  | rparen
  | rbrack
  | rbrace
  | fromWord
  | toWord
  | asWord
  | withWord
  | stepWord
  | forWord
  | inWord
  | other (code : Int)
  deriving DecidableEq, Inhabited

namespace Kind

/-- The number of a kind.  The gaps separate literals, operators and keywords. -/
def code : Kind → Int
  | illegal => 0
  | eof => 1
  | comment => 2
  | newline => 3
  | ident => 5
  | number => 6
  | assign => 9
  | plus => 10
  | minus => 11
  | times => 12
  | divide => 13
  | power => 14
  | lparen => 15
  | lbrack => 16
  | lbrace => 17
  | comma => 18
  | rparen => 19
  | rbrack => 20
  | rbrace => 21
  | fromWord => 24
  | toWord => 25
  | asWord => 26
  | withWord => 27
  | stepWord => 28
  | forWord => 29
  | inWord => 30
  | other n => n

/-- The kinds that stand for a literal. -/
def literals : List Kind := [ident, number]

/-- The kinds that stand for punctuation or an operator. -/
def operators : List Kind :=
  [assign, plus, minus, times, divide, power, lparen, lbrack, lbrace, comma, rparen, rbrack,
    rbrace]

/-- The kinds of the reserved words, in their listed order. -/
def keywords : List Kind :=
  [fromWord, toWord, asWord, withWord, stepWord, forWord, inWord]

/-- Every kind that has a text of its own. -/
def named : List Kind :=
  [illegal, eof, comment, newline] ++ literals ++ operators ++ keywords

/-- The kind with a given number. -/
def ofCode (n : Int) : Kind :=
  (named.find? (·.code == n)).getD (other n)

/-- How a kind is named in messages. -/
def text : Kind → String
  | illegal => "ILLEGAL"
  | eof => "EOF"
  | comment => "COMMENT"
  | newline => "NEWLINE"
  | ident => "IDENT"
  | number => "FLOAT"
  | assign => "="
  | plus => "+"
  | minus => "-"
  | times => "*"
  | divide => "/"
  | power => "^"
  | lparen => "("
  | lbrack => "["
  | lbrace => "\x7b"
  | comma => ","
  | rparen => ")"
  | rbrack => "]"
  | rbrace => "\x7d"
  | fromWord => "from"
  | toWord => "to"
  | asWord => "as"
  | withWord => "with"
  | stepWord => "step"
  | forWord => "for"
  | inWord => "in"
  | other n => "token(" ++ toString n ++ ")"

/-- A kind of literal. -/
def isLiteral (k : Kind) : Bool := literals.contains k

/-- A kind of punctuation or operator. -/
def isOperator (k : Kind) : Bool := operators.contains k

/-- A kind of reserved word. -/
def isKeyword (k : Kind) : Bool := keywords.contains k

/-- The kind of a word: the keyword that it spells, or else an identifier. -/
def ofWord (word : String) : Kind :=
  (keywords.find? (·.text == word)).getD ident

/-- The kind of a character that is a token by itself. -/
def ofSymbol? : Char → Option Kind
  | '=' => some assign
  | '+' => some plus
  | '-' => some minus
  | '*' => some times
  | '/' => some divide
  | '^' => some power
  | '(' => some lparen
  | ')' => some rparen
  | '[' => some lbrack
  | ']' => some rbrack
  | '\x7b' => some lbrace
  | '\x7d' => some rbrace
  | ',' => some comma
  | '#' => some comment
  | _ => none

end Kind

/-- The reserved words in their listed order. -/
def keywordTexts : List String := Kind.keywords.map Kind.text

/-- A position in a labelled source; lines and columns count from one. -/
structure Place where
  file : String
  line : Int
  column : Int
  deriving DecidableEq, Inhabited

/-- The place as `file:line:column`. -/
def Place.render (p : Place) : String :=
  p.file ++ ":" ++ toString p.line ++ ":" ++ toString p.column

/-- A unit of the source. -/
structure Token where
  kind : Kind
  text : String
  place : Place
  deriving DecidableEq, Inhabited

namespace Token

/-- A message about a token, with the token's place in front. -/
def report (t : Token) (message : String) : String :=
  t.place.render ++ ": " ++ message

end Token

end ListCalc
