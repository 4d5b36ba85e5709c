/-
Bytes written in base 64.

Four digits stand for three bytes.  The last group may be filled up with one or
two equals signs, and then stands for two bytes or for one.  Line ends are passed
over.  The bits that filling leaves over may be anything.

* `Base64.decode?` — the bytes that a text stands for.
-/

namespace ListCalc.Text.Base64

/-- The value of a digit in base sixty-four. -/
def digit? (c : Char) : Option Nat :=
  if 'A' ≤ c && c ≤ 'Z' then some (c.toNat - 'A'.toNat)
  else if 'a' ≤ c && c ≤ 'z' then some (c.toNat - 'a'.toNat + 26)
  else if '0' ≤ c && c ≤ '9' then some (c.toNat - '0'.toNat + 52)
  else if c = '+' then some 62
  else if c = '/' then some 63
  else none

/-- The three bytes of four digits. -/
def group (a b c d : Nat) : List UInt8 :=
  [UInt8.ofNat (a * 4 + b / 16), UInt8.ofNat (b % 16 * 16 + c / 4), UInt8.ofNat (c % 4 * 64 + d)]

/-- The bytes of a text without line ends. -/
def decodeGroups? : List Char → Option (List UInt8)
  | [] => some []
  | [a, b, '=', '='] => do
    return (group (← digit? a) (← digit? b) 0 0).take 1
  | [a, b, c, '='] => do
    return (group (← digit? a) (← digit? b) (← digit? c) 0).take 2
  | a :: b :: c :: d :: rest => do
    let bytes := group (← digit? a) (← digit? b) (← digit? c) (← digit? d)
    return bytes ++ (← decodeGroups? rest)
  | _ => none

/-- The bytes that a text stands for. -/
def decode? (text : String) : Option (List UInt8) :=
  decodeGroups? (text.toList.filter fun c => c != '\n' && c != '\r')

end ListCalc.Text.Base64
