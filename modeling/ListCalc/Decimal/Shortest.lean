/-
The shortest decimal of a binary number.

A positive binary number `m · 2 ^ q` stands for an interval: all reals that
round to it.  `shortest` is the point of the coarsest decimal grid that has one
in this interval.  If the number has a neighbour on that grid on both sides of
it, the nearer one is taken, and of two equally near ones the even one.

All comparisons are between whole numbers.  On a grid of step `10 ^ g` the
number and the ends of its interval are scaled to quarters of `2 ^ q`, so that
half a gap and, below a power of two, a quarter of one are whole.
-/
import ListCalc.Decimal

namespace ListCalc

/-- The number `mantissa · 2 ^ exponent` with the reals that round to it.  The gap to the number
below is half as wide as the one above where the mantissa has just overflowed; the ends belong to
the interval if the mantissa is even. -/
structure Binary where
  mantissa : Nat
  exponent : Int
  narrowBelow : Bool
  deriving DecidableEq

namespace Binary

/-- The numerator and the denominator that scale `quarters · 2 ^ (exponent - 2)` to a grid of step
`10 ^ g`. -/
def scaling (b : Binary) (g : Int) : Nat × Nat :=
  let twos := b.exponent - 2
  (Nat.pow 2 twos.toNat * Nat.pow 10 (-g).toNat, Nat.pow 2 (-twos).toNat * Nat.pow 10 g.toNat)

/-- The point `c · 10 ^ g` rounds to the number. -/
def holds (b : Binary) (g : Int) (c : Nat) : Bool :=
  let (num, den) := b.scaling g
  let low := (4 * b.mantissa - if b.narrowBelow then 1 else 2) * num
  let high := (4 * b.mantissa + 2) * num
  let point := c * den
  if b.mantissa % 2 = 0 then low ≤ point && point ≤ high else low < point && point < high

/-- The point of the grid of step `10 ^ g` that is nearest to the number among those that round
to it. -/
def pointOn? (b : Binary) (g : Int) : Option Nat :=
  let (num, den) := b.scaling g
  let below := 4 * b.mantissa * num / den
  let excess := 4 * b.mantissa * num - below * den
  let above := below + 1
  match 0 < below && b.holds g below, b.holds g above with
  | true, true =>
    if 2 * excess < den then some below
    else if den < 2 * excess then some above
    else if below % 2 = 0 then some below else some above
  | true, false => some below
  | false, true => some above
  | false, false => none

/-- The point on the first of `steps` ever finer grids that has one; the last grid is used in any
case. -/
def search (b : Binary) : Nat → Int → Decimal
  | 0, g => ⟨(b.pointOn? g).getD 0, g⟩
  | steps + 1, g =>
    match b.pointOn? g with
    | some c => ⟨c, g⟩
    | none => search b steps (g - 1)

/-- A grid that is coarser than the number is large. -/
def coarsest (b : Binary) : Int :=
  Int.fdiv ((b.mantissa.log2 + b.exponent + 1) * 30103) 100000 + 1

/-- The shortest decimal that rounds to the number. -/
def shortest (b : Binary) : Decimal :=
  b.search 24 b.coarsest

end Binary

end ListCalc
