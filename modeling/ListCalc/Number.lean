/-
Numbers and how they are printed.

A number is an IEEE double.  It is printed with the fewest digits that read back
as the same number, in plain notation with at least one digit on either side of
the point; what is no finite number is printed as a word.
-/
import ListCalc.Decimal.Shortest

namespace ListCalc

namespace Number

/-- The biased exponent of a number. -/
def exponentBits (x : Float) : Nat := (x.toBits.toNat / 0x10000000000000) % 0x800

/-- The stored part of the mantissa of a number. -/
def fractionBits (x : Float) : Nat := x.toBits.toNat % 0x10000000000000

/-- The sign bit of a number. -/
def isNegative (x : Float) : Bool := 0x8000000000000000 ≤ x.toBits.toNat

/-- The size of a finite number, as a mantissa and a power of two. -/
def magnitude (x : Float) : Binary :=
  let e := exponentBits x
  let f := fractionBits x
  if e = 0 then ⟨f, -1074, false⟩
  else ⟨0x10000000000000 + f, e - 1075, f == 0 && e != 1⟩

/-- A finite number without its sign. -/
def renderMagnitude (x : Float) : String :=
  let b := magnitude x
  if b.mantissa = 0 then "0.0" else b.shortest.positional

/-- A number as text. -/
def render (x : Float) : String :=
  if exponentBits x = 2047 then
    if fractionBits x ≠ 0 then "NaN" else if isNegative x then "-inf" else "inf"
  else if isNegative x then "-" ++ renderMagnitude x
  else renderMagnitude x

end Number

end ListCalc
