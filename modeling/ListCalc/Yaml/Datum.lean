/-
What a plain scalar stands for.

A scalar without a tag is a number, a truth value, a date or nothing if it is
written like one, and a text otherwise.  The tag of one of these kinds must agree
with what is written, except that a whole number may stand for a number with a
fraction and anything may stand for a text.  The tag for bytes takes base 64, and
with any other tag the scalar is a text.
-/
import ListCalc.Number.Literal
import ListCalc.Text.Base64
import ListCalc.Text.Utf8
import ListCalc.Yaml.Cursor

namespace ListCalc.Yaml

/-- What a scalar stands for. -/
inductive Datum where
  | null
  | bool (b : Bool)
  | int (n : Int)
  | float (x : Float)
  | timestamp
  | text (s : String)

namespace Datum

/-- The tag of a datum. -/
def tag : Datum → String
  | null => "!!null"
  | bool _ => "!!bool"
  | int _ => "!!int"
  | float _ => "!!float"
  | timestamp => "!!timestamp"
  | text _ => "!!str"

end Datum

/-- The short form of a tag: two marks of exclamation for the standard ones. -/
def shortTag (tag : String) : String :=
  let front := "tag:yaml.org,2002:".toList
  if front.isPrefixOf tag.toList then "!!" ++ String.ofList (tag.toList.drop front.length) else tag

/-! ### Words -/

/-- The words that stand for something. -/
def word? (s : String) : Option Datum :=
  if ["true", "True", "TRUE"].contains s then some (.bool true)
  else if ["false", "False", "FALSE"].contains s then some (.bool false)
  else if ["", "~", "null", "Null", "NULL"].contains s then some .null
  else if [".nan", ".NaN", ".NAN"].contains s then some (.float (0.0 / 0.0))
  else if [".inf", ".Inf", ".INF", "+.inf", "+.Inf", "+.INF"].contains s then
    some (.float (1.0 / 0.0))
  else if ["-.inf", "-.Inf", "-.INF"].contains s then some (.float (-1.0 / 0.0))
  else none

/-! ### Whole numbers -/

/-- The value of digits in a base up to sixteen; there must be some. -/
def digitsValue? (base : Nat) (cs : List Char) : Option Nat :=
  if cs.isEmpty then none
  else cs.foldlM (fun n c =>
    match Number.hexDigit? c with
    | some d => if d < base then some (n * base + d) else none
    | none => none) 0

/-- The size of a whole number, whose base is given by its front. -/
def wholeSize? : List Char → Option Nat
  | ['0'] => some 0
  | '0' :: x :: cs =>
    match Number.lower x with
    | 'x' => digitsValue? 16 cs
    | 'o' => digitsValue? 8 cs
    | 'b' => digitsValue? 2 cs
    | _ => digitsValue? 8 (x :: cs)
  | cs => digitsValue? 10 cs

/-- A whole number of 64 bits behind a sign. -/
def signed? (size? : List Char → Option Nat) : List Char → Option Int
  | '-' :: cs =>
    (size? cs).bind fun n => if n ≤ 0x8000000000000000 then some (-(n : Int)) else none
  | '+' :: cs => (size? cs).bind fun n => if n < 0x8000000000000000 then some (n : Int) else none
  | _ => none

/-- A whole number of 64 bits without a sign. -/
def unsigned? (cs : List Char) : Option Int :=
  (wholeSize? cs).bind fun n => if n < 0x10000000000000000 then some (n : Int) else none

/-- A whole number whose sign stands behind its base. -/
def inwardSigned? : List Char → Option Int
  | '0' :: 'b' :: cs => signed? (digitsValue? 2) cs
  | '0' :: 'o' :: cs => signed? (digitsValue? 8) cs
  | _ => none

/-- A whole number. -/
def whole? (cs : List Char) : Option Int :=
  ((signed? wholeSize? cs).or (unsigned? cs)).or (inwardSigned? cs)

/-! ### Numbers with a fraction -/

/-- An exponent, or nothing. -/
def isExponent : List Char → Bool
  | [] => true
  | e :: cs =>
    let digits := match cs with
      | '+' :: rest => rest
      | '-' :: rest => rest
      | rest => rest
    (e == 'e' || e == 'E') && !digits.isEmpty && digits.all Char.isDigit

/-- Digits with a point at most, then an exponent or nothing. -/
def isNumeral (cs : List Char) : Bool :=
  let cs := match cs with
    | '+' :: rest => rest
    | '-' :: rest => rest
    | rest => rest
  let before := cs.takeWhile Char.isDigit
  match cs.dropWhile Char.isDigit with
  | '.' :: rest =>
    let after := rest.takeWhile Char.isDigit
    (!before.isEmpty || !after.isEmpty) && isExponent (rest.dropWhile Char.isDigit)
  | rest => !before.isEmpty && isExponent rest

/-! ### Dates -/

/-- Splits off one or two digits; gives their value. -/
def shortNumber? (cs : List Char) : Option (Nat × List Char) :=
  let digits := (cs.take 2).takeWhile Char.isDigit
  (digitsValue? 10 digits).map fun n => (n, cs.drop digits.length)

/-- Splits off a character. -/
def expect? (x : Char) : List Char → Option (List Char)
  | [] => none
  | c :: cs => if c = x then some cs else none

/-- How many days a month has. -/
def daysIn (year month : Nat) : Nat :=
  if month = 2 then
    if year % 4 = 0 && (year % 100 ≠ 0 || year % 400 = 0) then 29 else 28
  else if [4, 6, 9, 11].contains month then 30 else 31

/-- A time zone: the letter for none, or a sign, hours and minutes of two digits each. -/
def isZone : List Char → Bool
  | ['Z'] => true
  | [s, a, b, ':', c, d] =>
    (s == '+' || s == '-') && [a, b, c, d].all Char.isDigit
      && (digitsValue? 10 [a, b]).any (· ≤ 24) && (digitsValue? 10 [c, d]).any (· ≤ 60)
  | _ => false

/-- Splits off a time of day with an optional fraction of a second. -/
def time? (cs : List Char) : Option (List Char) := do
  let (hour, cs) ← shortNumber? cs
  let cs ← expect? ':' cs
  let (minute, cs) ← shortNumber? cs
  let cs ← expect? ':' cs
  let (second, cs) ← shortNumber? cs
  if 24 ≤ hour || 60 ≤ minute || 60 ≤ second then none
  match cs with
  | x :: d :: rest =>
    return if (x == '.' || x == ',') && d.isDigit then rest.dropWhile Char.isDigit else cs
  | _ => return cs

/-- A date, or a date and a time. -/
def isTimestamp (cs : List Char) : Bool :=
  let year := cs.takeWhile Char.isDigit
  let parsed : Option Bool := do
    if year.length ≠ 4 then none
    let y ← digitsValue? 10 year
    let cs ← expect? '-' (cs.drop 4)
    let (month, cs) ← shortNumber? cs
    let cs ← expect? '-' cs
    let (day, cs) ← shortNumber? cs
    if month < 1 || 12 < month || day < 1 || daysIn y month < day then none
    match cs with
    | [] => return true
    | 'T' :: rest => return isZone (← time? rest)
    | 't' :: rest => return isZone (← time? rest)
    | ' ' :: rest => return (← time? (rest.dropWhile (· == ' '))).isEmpty
    | _ => none
  parsed.getD false

/-! ### Scalars -/

/-- What a text that starts with a digit or a sign stands for. -/
def numeric (dates : Bool) (s : String) : Datum :=
  if dates && isTimestamp s.toList then .timestamp
  else
    let plain := s.toList.filter (· != '_')
    match whole? plain with
    | some n => .int n
    | none =>
      match if isNumeral plain then Number.read? (String.ofList plain) else none with
      | some x => .float x
      | none => .text s

/-- What a scalar stands for, where dates may be excluded. -/
def datumOf (dates : Bool) (s : String) : Datum :=
  match s.toList with
  | [] => .null
  | c :: _ =>
    if "yYnNtTfFoO~".toList.contains c then (word? s).getD (.text s)
    else if c = '.' then
      match word? s with
      | some d => d
      | none =>
        match Number.read? s with
        | some x => .float x
        | none => .text s
    else if c.isDigit || c = '+' || c = '-' then
      match word? s with
      | some d => d
      | none => numeric dates s
    else .text s

/-- The tags of the kinds that are told apart by how they are written; empty for no tag. -/
def writtenTags : List String :=
  ["", "!!bool", "!!int", "!!float", "!!null", "!!timestamp"]

/-- The text of some bytes in base 64. -/
def binary (s : String) : Except Error Datum :=
  match Text.Base64.decode? s with
  | some bytes => .ok (.text (Text.decode bytes))
  | none => .error (.general "!!binary value contains invalid base64 data")

/-- A datum as what a tag asks for.  A whole number with a sign bit to spare may become a number
with a fraction. -/
def Datum.tagged (d : Datum) (tag s : String) : Except Error Datum :=
  let refuse : Except Error Datum :=
    .error (.general ("cannot decode " ++ d.tag ++ " `" ++ s ++ "` as a " ++ tag))
  if tag = "" || tag = d.tag then .ok d
  else match d with
    | .int n =>
      if tag = "!!float" && n < 0x8000000000000000 then .ok (.float (Float.ofInt n)) else refuse
    | _ => refuse

/-- What a scalar with a given tag stands for; the tag is empty if there is none. -/
def resolve (tag s : String) : Except Error Datum :=
  let tag := shortTag tag
  if tag = "!!binary" then binary s
  else if writtenTags.contains tag then
    (datumOf (tag = "" || tag = "!!timestamp") s).tagged tag s
  else .ok (.text s)

end ListCalc.Yaml
