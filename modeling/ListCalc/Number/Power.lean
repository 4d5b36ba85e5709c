/-
Powers of numbers.

The whole part of an exponent is worked off by squaring, where factors and powers of two are kept
apart so that nothing overflows on the way.  What the exponent has behind the point goes
through a logarithm and an exponential.  Each of them is a fixed sequence of rounded
operations, so that a power has the same last digit wherever it is computed.

* `logarithm`, `exponential` — to the base of natural logarithms;
* `repeatedSquares` — whole powers;
* `power` — all powers, those of infinities and of no number included.
-/
import ListCalc.Number.Scaling

namespace ListCalc.Number

/-! ### Logarithms and exponentials -/

/-- The natural logarithm of a positive finite number. -/
def logarithm (x : Float) : Float :=
  let (s, e) := significand x
  let (s, e) := if s < 0.7071067811865476 then (s * 2.0, e - 1) else (s, e)
  let k := Float.ofInt e
  let f := s - 1.0
  let s := f / (2.0 + f)
  let s2 := s * s
  let s4 := s2 * s2
  let odd := s2 * polynomial
    [0.1479819860511658591, 0.1818357216161805012, 0.2857142874366239149, 0.6666666666666735130] s4
  let even := s4 * polynomial [0.1531383769920937332, 0.2222219843214978396, 0.3999999999940941908] s4
  let half := 0.5 * f * f
  k * 0.693147180369123816490
    - ((half - (s * (half + (odd + even)) + k * 1.90821492927058770002e-10)) - f)

/-- The exponential of a number that is not too large.  A multiple of the logarithm of two is taken
off, and the power series is summed up for a sixteenth of what is left.  Where `1 + p` is the
exponential of a number, `1 + p * (p + 2)` is that of its double. -/
def exponential (x : Float) : Float :=
  let n := nearestWhole (x * 1.4426950408889634)
  let k := Float.ofInt (-n)
  let rest := fused k 0.28235290563031577122588448175013436025525412068e-12
    (fused k 0.69314718055966295651160180568695068359375 x)
  let r := rest * 0.0625
  let sum := [1.9841269841269841270e-4, 1.3888888888888888889e-3, 8.3333333333333333333e-3,
    4.1666666666666666667e-2, 1.6666666666666666667e-1, 0.5, 1.0].foldl
    (fun sum c => fused sum r c) 2.4801587301587301587e-5
  let double (p : Float) : Float := p * (p + 2.0)
  let p := double (double (double (r * sum)))
  scale (fused p (p + 2.0) 1.0) n

/-! ### Powers -/

/-- `a · 2 ^ k` times the `n`-th power of `s · 2 ^ e`, where `s` has a size of at least one half
and less than one.  A power of two beyond all numbers decides the result. -/
def repeatedSquares (s : Float) (e : Int) (n : Nat) (a : Float) (k : Int) : Float × Int :=
  if n = 0 then (a, k)
  else if e < -4096 || 4096 < e then (a, k + e)
  else
    let (a, k) := if n % 2 = 1 then (a * s, k + e) else (a, k)
    let square := s * s
    if square < 0.5 then repeatedSquares (square + square) (2 * e - 1) (n / 2) a k
    else repeatedSquares square (2 * e) (n / 2) a k
termination_by n

/-- The number is whole and odd. -/
def isOdd (x : Float) : Bool :=
  let size := x.abs
  size < 9007199254740992.0 && Float.ofNat size.toUInt64.toNat == size && size.toUInt64 % 2 == 1

/-- A power with an exponent that is infinite, or so large that it is even and nothing but its sign
counts. -/
def farPower (x y : Float) : Float :=
  if x == -1.0 then 1.0 else if x.abs < 1.0 ↔ 0.0 < y then 0.0 else 1.0 / 0.0

/-- A power of a finite number other than zero with a finite exponent. -/
def finitePower (x y : Float) : Float :=
  let size := y.abs
  if 9223372036854775808.0 ≤ size then farPower x y
  else
    let whole := size.toUInt64.toNat
    let rest := size - Float.ofNat whole
    if rest != 0.0 && x < 0.0 then 0.0 / 0.0
    else
      let (whole, rest) := if 0.5 < rest then (whole + 1, rest - 1.0) else (whole, rest)
      let factor := if rest == 0.0 then 1.0 else exponential (rest * logarithm x)
      let (s, e) := significand x
      let (a, k) := repeatedSquares s e whole factor 0
      if y < 0.0 then scale (1.0 / a) (-k) else scale a k

/-- A power of a number. -/
def power (x y : Float) : Float :=
  if y == 0.0 || x == 1.0 then 1.0
  else if y == 1.0 then x
  else if x.isNaN || y.isNaN then 0.0 / 0.0
  else if x == 0.0 then
    if y < 0.0 then if isOdd y then 1.0 / x else 1.0 / 0.0
    else if isOdd y then x else 0.0
  else if y.isInf then farPower x y
  else if x.isInf then
    let size := if y < 0.0 then 0.0 else 1.0 / 0.0
    if x < 0.0 && isOdd y then -size else size
  else if y == 0.5 then x.sqrt
  else if y == -0.5 then 1.0 / x.sqrt
  else finitePower x y

end ListCalc.Number
