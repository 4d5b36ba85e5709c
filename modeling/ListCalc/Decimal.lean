/-
Decimal numbers.

`Decimal` is a whole number of units of a power of ten.  `positional` writes it
with a point and at least one digit on either side, and never with an exponent.
-/

namespace ListCalc

/-- The number `digits · 10 ^ exponent`. -/
structure Decimal where
  digits : Nat
  exponent : Int
  deriving DecidableEq

namespace Decimal

/-- The decimal digits of `n`. -/
def digitChars (n : Nat) : List Char := Nat.toDigits 10 n

/-- The digits with a point in front of the last `places` of them, with zeros in front where a
whole part is missing. -/
def pointed (digits : List Char) (places : Nat) : List Char :=
  let padded := List.replicate (places + 1 - digits.length) '0' ++ digits
  let whole := padded.length - places
  padded.take whole ++ '.' :: padded.drop whole

/-- The number in plain notation: a whole part, a point and a fraction. -/
def positional (d : Decimal) : String :=
  match d.exponent with
  | .ofNat n => String.ofList (digitChars d.digits ++ List.replicate n '0' ++ ['.', '0'])
  | .negSucc n => String.ofList (pointed (digitChars d.digits) (n + 1))

end Decimal

end ListCalc
