/-
From text to tokens.

The scanner walks over the characters of a source and cuts it into tokens.
Blanks separate tokens and are dropped, except the line feed, which is a token
of its own.  Words are runs of letters, digits and underscores; numbers are
runs of digits, points and underscores and come out in canonical form, a whole
part and a fraction with no separators; every other character is a token by
itself, of kind `illegal` if the language does not use it.

* `Scanner.next` — the next token, or an error that carries the token at which
  it arose; scanning can go on after an error;
* `tokenize` — all tokens up to and including the end of the source.
-/
import ListCalc.Text.Blank
import ListCalc.Text.Quoted
import ListCalc.Token

namespace ListCalc

/-! ### Characters -/

/-- A letter of the Latin alphabet, or the underscore. -/
def isLetter (c : Char) : Bool :=
  ('a' ≤ c && c ≤ 'z') || ('A' ≤ c && c ≤ 'Z') || c == '_'

/-- A decimal digit. -/
def isDigit (c : Char) : Bool :=
  '0' ≤ c && c ≤ '9'

/-- A character that can continue a word. -/
def isWordChar (c : Char) : Bool :=
  isLetter c || isDigit c

/-- A blank that is not the end of a line. -/
def isGap (c : Char) : Bool :=
  c != '\n' && Text.isBlank c

/-! ### Errors -/

/-- How scanning can fail. -/
inductive ScanError.Kind where
  | secondPoint
  | pastEnd
  | other (code : Int)
  deriving DecidableEq

/-- The number of a failure. -/
def ScanError.Kind.ofCode : Int → ScanError.Kind
  | 0 => secondPoint
  | 1 => pastEnd
  | n => other n

/-- A failure to scan, with the token at which it arose. -/
structure ScanError where
  kind : ScanError.Kind
  token : Token
  deriving DecidableEq

/-- The failure in words, behind its place. -/
def ScanError.message (e : ScanError) : String :=
  e.token.report <| match e.kind with
    | .secondPoint => "multiple decimal points in number " ++ Text.quote e.token.text
    | .pastEnd => "unexpected end of input"
    | .other _ => "lexical error"

/-! ### Numbers -/

/-- Splits off the longest run of digits and underscores with at most one point; none if a
point has already gone by. -/
def numberSpan : Bool → List Char → List Char × List Char
  | _, [] => ([], [])
  | pointSeen, c :: cs =>
    if isDigit c || c == '_' then
      let (run, rest) := numberSpan pointSeen cs
      (c :: run, rest)
    else if c == '.' && !pointSeen then
      let (run, rest) := numberSpan true cs
      (c :: run, rest)
    else ([], c :: cs)

/-- The digits of a run without separators and with a whole part. -/
def wholeDigits (run : List Char) : List Char :=
  let digits := run.filter (· != '_')
  if digits.head? = some '.' then '0' :: digits else digits

/-- The canonical form of a run with at most one point: a whole part, a point and a fraction. -/
def canonicalNumber (run : List Char) : List Char :=
  let digits := wholeDigits run
  if !digits.contains '.' then digits ++ ['.', '0']
  else if digits.getLast? = some '.' then digits ++ ['0']
  else digits

/-! ### Lexemes -/

/-- A piece cut off the front of the source.  It is malformed if a second point cuts a number
short. -/
structure Lexeme where
  kind : Kind
  text : String
  taken : List Char
  rest : List Char
  wellFormed : Bool

/-- The lexeme that starts with the character `c`, which is no gap. -/
def lexeme (c : Char) (cs : List Char) : Lexeme :=
  if c = '\n' then ⟨.newline, "\n", [c], cs, true⟩
  else if isLetter c then
    let word := (c :: cs).takeWhile isWordChar
    let text := String.ofList word
    ⟨.ofWord text, text, word, (c :: cs).dropWhile isWordChar, true⟩
  else if isDigit c || c == '.' then
    let (run, rest) := numberSpan false (c :: cs)
    if rest.head? = some '.' then
      ⟨.number, String.ofList (wholeDigits run ++ ['.']), run, rest, false⟩
    else
      ⟨.number, String.ofList (canonicalNumber run), run, rest, true⟩
  else ⟨(Kind.ofSymbol? c).getD .illegal, c.toString, [c], cs, true⟩

/-! ### The scanner -/

/-- The place after a character that stands at `p`. -/
def Place.after (p : Place) (c : Char) : Place :=
  if c = '\n' then { p with line := p.line + 1, column := 1 }
  else { p with column := p.column + 1 }

/-- The place after some characters that start at `p`. -/
def Place.afterAll (p : Place) (cs : List Char) : Place :=
  cs.foldl Place.after p

/-- Where scanning stands: the place and the characters ahead, and whether the end has been
reported. -/
structure Scanner where
  place : Place
  rest : List Char
  ended : Bool

namespace Scanner

/-- A scanner at the start of a source. -/
def ofText (file : String) (source : String) : Scanner :=
  ⟨⟨file, 1, 1⟩, source.toList, false⟩

/-- The scanner moved past the gap in front of it. -/
def skipGap (s : Scanner) : Scanner :=
  { s with
    place := s.place.afterAll (s.rest.takeWhile isGap)
    rest := s.rest.dropWhile isGap }

/-- The next token, and the scanner behind it.  The end of the source is reported once; asking
again is an error. -/
def next (scanner : Scanner) : Except ScanError Token × Scanner :=
  let s := scanner.skipGap
  match s.rest with
  | [] =>
    if s.ended then (.error ⟨.pastEnd, ⟨.illegal, "", s.place⟩⟩, s)
    else (.ok ⟨.eof, "", s.place⟩, { s with ended := true })
  | c :: cs =>
    let l := lexeme c cs
    let token : Token := ⟨l.kind, l.text, s.place⟩
    let behind := { s with place := s.place.afterAll l.taken, rest := l.rest }
    (if l.wellFormed then .ok token else .error ⟨.secondPoint, token⟩, behind)

/-- All tokens ahead of a scanner with at most `bound` characters left. -/
def tokens : Nat → Scanner → Except ScanError (List Token)
  | 0, s => .ok [⟨.eof, "", s.place⟩]
  | bound + 1, s =>
    match s.next with
    | (.error e, _) => .error e
    | (.ok t, s') =>
      if t.kind = .eof then .ok [t]
      else do
        let ts ← tokens bound s'
        return t :: ts

end Scanner

/-- The tokens of a source, the end of the source last, or the first error. -/
def tokenize (file : String) (source : String) : Except ScanError (List Token) :=
  let s := Scanner.ofText file source
  s.tokens s.rest.length

end ListCalc
