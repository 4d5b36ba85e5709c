/-
Numbers taken apart.

A finite number is a whole multiple of a power of two, and `ofParts` is the way back: it
rounds such a multiple to a number.  What is computed with whole numbers in between is
exact.

* `significand` — a number as a factor between one half and one and a power of two;
* `scale` — a number times a power of two;
* `fused` — a product and a sum that are rounded together;
* `polynomial` — a polynomial, each step of which is rounded.
-/
import ListCalc.Number.Literal

namespace ListCalc.Number

/-- The whole multiple of a power of two that a finite number is. -/
def parts (x : Float) : Int × Int :=
  let b := magnitude x
  (if isNegative x then -b.mantissa else b.mantissa, b.exponent)

/-- The number nearest to `m · 2 ^ e`; what is too large is infinite. -/
def ofParts (m e : Int) : Float :=
  let size := (ofBinary? m.natAbs e).getD (1.0 / 0.0)
  if m < 0 then -size else size

/-- A finite number other than zero as `s · 2 ^ e`, where `s` has a size of at least one half and
less than one. -/
def significand (x : Float) : Float × Int :=
  let (m, e) := parts x
  let places : Int := m.natAbs.log2 + 1
  (ofParts m (-places), e + places)

/-- The number nearest to `x · 2 ^ n`. -/
def scale (x : Float) (n : Int) : Float :=
  if x == 0.0 || !x.isFinite then x
  else
    let (m, e) := parts x
    ofParts m (e + n)

/-- The whole number nearest to a finite number; of two the even one. -/
def nearestWhole (x : Float) : Int :=
  let (m, e) := parts x
  let unit : Int := Nat.pow 2 (-e).toNat
  let scaled := m * Nat.pow 2 e.toNat
  let below := scaled / unit
  let excess := 2 * (scaled % unit)
  if excess < unit || (excess = unit && below % 2 = 0) then below else below + 1

/-- The number nearest to `x · y + z`, where all three are finite. -/
def fused (x y z : Float) : Float :=
  let (mx, ex) := parts x
  let (my, ey) := parts y
  let (mz, ez) := parts z
  let e := min (ex + ey) ez
  ofParts (mx * my * Nat.pow 2 (ex + ey - e).toNat + mz * Nat.pow 2 (ez - e).toNat) e

/-- The polynomial with the given coefficients, that of the highest power first. -/
def polynomial (coefficients : List Float) (x : Float) : Float :=
  coefficients.foldl (fun sum c => sum * x + c) 0.0

end ListCalc.Number
