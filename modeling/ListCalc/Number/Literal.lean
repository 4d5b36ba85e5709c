/-
Reading numbers.

`Number.read?` accepts what a number can be written as: an optional sign, then
digits with at most one point and an optional power of ten; or a hexadecimal
number with a power of two; or one of the words for infinity and for no number.
Underscores may stand between digits.  The result is the nearest double, with
ties to even; a number that is too large for a double is refused, and one that
is too small is zero.
-/
import ListCalc.Number

namespace ListCalc

namespace Number

/-- The lower-case form of an ASCII letter. -/
def lower (c : Char) : Char :=
  if 'A' ≤ c && c ≤ 'Z' then Char.ofNat (c.toNat + 32) else c

/-- The value of a digit in base ten. -/
def decimalDigit? (c : Char) : Option Nat :=
  if '0' ≤ c && c ≤ '9' then some (c.toNat - '0'.toNat) else none

/-- The value of a digit in base sixteen. -/
def hexDigit? (c : Char) : Option Nat :=
  if '0' ≤ c && c ≤ '9' then some (c.toNat - '0'.toNat)
  else if 'a' ≤ lower c && lower c ≤ 'f' then some ((lower c).toNat - 'a'.toNat + 10)
  else none

/-! ### Underscores -/

/-- What the character before the current one was. -/
inductive Before where
  | start
  | digit
  | underscore
  | sign

/-- Every underscore stands between two digits, where `isDigit` tells digits. -/
def underscoresFit (isDigit : Char → Bool) : Before → List Char → Bool
  | .underscore, [] => false
  | _, [] => true
  | before, c :: cs =>
    if isDigit c then underscoresFit isDigit .digit cs
    else if c = '_' then
      match before with
      | .digit => underscoresFit isDigit .underscore cs
      | _ => false
    else
      match before with
      | .underscore => false
      | _ => underscoresFit isDigit .sign cs

/-- Every underscore of an unsigned number stands between two digits; a base in front counts as a
digit. -/
def underscoresFitNumber : List Char → Bool
  | '0' :: x :: cs =>
    if lower x = 'x' then underscoresFit (fun c => (hexDigit? c).isSome) .digit cs
    else if lower x = 'b' || lower x = 'o' then
      underscoresFit (fun c => (decimalDigit? c).isSome) .digit cs
    else underscoresFit (fun c => (decimalDigit? c).isSome) .start ('0' :: x :: cs)
  | cs => underscoresFit (fun c => (decimalDigit? c).isSome) .start cs

/-! ### Mantissa and exponent -/

/-- The digits read so far, as a whole number, and how many of them stand behind the point. -/
structure Mantissa where
  value : Nat
  places : Nat
  pointSeen : Bool
  digitSeen : Bool

/-- Reads digits in a base, with underscores and at most one point. -/
def mantissa (base : Nat) (digit? : Char → Option Nat) : Mantissa → List Char → Mantissa × List Char
  | m, [] => (m, [])
  | m, c :: cs =>
    if c = '_' then mantissa base digit? m cs
    else if c = '.' && !m.pointSeen then mantissa base digit? { m with pointSeen := true } cs
    else match digit? c with
      | some d =>
        mantissa base digit?
          ⟨m.value * base + d, if m.pointSeen then m.places + 1 else m.places, m.pointSeen, true⟩ cs
      | none => (m, c :: cs)

/-- Reads the digits of an exponent; it stops growing beyond any exponent that matters. -/
def exponentDigits : Nat → List Char → Option Nat
  | e, [] => some e
  | e, c :: cs =>
    if c = '_' then exponentDigits e cs
    else match decimalDigit? c with
      | some d => exponentDigits (if e < 10000 then e * 10 + d else e) cs
      | none => none

/-- Reads an exponent up to the end of the text: a sign or none, a digit, and more digits. -/
def exponent? : List Char → Option Int
  | '+' :: c :: cs =>
    if (decimalDigit? c).isSome then (exponentDigits 0 (c :: cs)).map Int.ofNat else none
  | '-' :: c :: cs =>
    if (decimalDigit? c).isSome then (exponentDigits 0 (c :: cs)).map (fun e => -Int.ofNat e)
    else none
  | c :: cs =>
    if (decimalDigit? c).isSome then (exponentDigits 0 (c :: cs)).map Int.ofNat else none
  | [] => none

/-! ### Rounding -/

/-- The double nearest to `digits · 10 ^ exponent`, if it is finite.  Exponents beyond the range
of doubles are decided before any power is taken. -/
def ofDecimal? (d : Decimal) : Option Float :=
  if d.digits = 0 then some 0.0
  else
    let size : Int := (Decimal.digitChars d.digits).length + d.exponent
    if 310 < size then none
    else if size < -330 then some 0.0
    else
      let x := Float.ofScientific d.digits (d.exponent < 0) d.exponent.natAbs
      if x.isFinite then some x else none

/-- The double nearest to `m · 2 ^ e`, if it is finite. -/
def ofBinary? (m : Nat) (e : Int) : Option Float :=
  if m = 0 then some 0.0
  else
    let size : Int := m.log2 + e
    if 1030 < size then none
    else if size < -1080 then some 0.0
    else match e with
      | .ofNat n => ofDecimal? ⟨m * Nat.pow 2 n, 0⟩
      | .negSucc n => ofDecimal? ⟨m * Nat.pow 5 (n + 1), -(n + 1 : Nat)⟩

/-! ### The reader -/

/-- Reads an unsigned hexadecimal number behind its base; the power of two is required. -/
def hexadecimal? (cs : List Char) : Option Float :=
  match mantissa 16 hexDigit? ⟨0, 0, false, false⟩ cs with
  | (m, p :: rest) =>
    if m.digitSeen && lower p = 'p' then
      (exponent? rest).bind fun e => ofBinary? m.value (e - 4 * m.places)
    else none
  | (_, []) => none

/-- Reads an unsigned decimal number. -/
def decimal? (cs : List Char) : Option Float :=
  match mantissa 10 decimalDigit? ⟨0, 0, false, false⟩ cs with
  | (m, []) => if m.digitSeen then ofDecimal? ⟨m.value, -m.places⟩ else none
  | (m, c :: rest) =>
    if m.digitSeen && lower c = 'e' then
      (exponent? rest).bind fun e => ofDecimal? ⟨m.value, e - m.places⟩
    else none

/-- Reads an unsigned number. -/
def unsigned? (cs : List Char) : Option Float :=
  if !underscoresFitNumber cs then none
  else match cs with
    | '0' :: x :: c :: rest => if lower x = 'x' then hexadecimal? (c :: rest) else decimal? cs
    | _ => decimal? cs

/-- Reads a number or a word behind a sign or none. -/
def magnitude? (cs : List Char) : Option Float :=
  let word := String.ofList (cs.map lower)
  if word = "inf" || word = "infinity" then some (1.0 / 0.0) else unsigned? cs

/-- Reads a number. -/
def read? (text : String) : Option Float :=
  match text.toList with
  | '+' :: cs => magnitude? cs
  | '-' :: cs => (magnitude? cs).map fun x => -x
  | cs => if String.ofList (cs.map lower) = "nan" then some (0.0 / 0.0) else magnitude? cs

end Number

end ListCalc
