/-
Sines, cosines and tangents.

An angle is a number of quarter turns and a rest of at most an eighth of a turn to either
side.  Near zero a sine and a cosine are polynomials, and the number of quarter turns says
which of them is the value and with which sign.

* `quarterTurns` — the quarter turns and the rest of an angle;
* `sine`, `cosine`, `tangent` — the three functions.
-/
import ListCalc.Number.Scaling

namespace ListCalc.Number

/-! ### Quarter turns -/

/-- The digits of four divided by pi to the base of two, `1216` of them behind the point. -/
def eighthsPerUnit : Nat :=
  0x145f306dc9c882a53f84eafa3ea69bb81b6c52b3278872083fca2c757bd778ac36e48dc74849ba5c00c925dd413a32439fc3bd63962534e7dd1046bea5d768909d338e04d68befc827323ac7306a673e93908bf177bf250763ff12fffbc0b301fde5e2316b414da3eda6cfd9e4f96136e9e8c7ecd3cbfd45aea4f758fd7cbe2f67a0e73ef14a525d4d7f6bf623f1aba10ac06608df8f6d757

/-- The eighths of a turn in a large angle, modulo a whole turn, and the part of an eighth that is
left.  Of the digits those are taken that matter: the ones in front give whole turns, and the ones
behind are beyond what a number can hold. -/
def eighthsOfLarge (x : Float) : Nat × Float :=
  let (m, e) := parts x
  let digits := (eighthsPerUnit >>> (1027 - e).toNat) % Nat.pow 2 192
  let product := ((m.toNat * digits) >>> 64) % Nat.pow 2 128
  let upper := (product >>> 61) % Nat.pow 2 64
  let lower := product % Nat.pow 2 64
  -- The leading digit of the fraction is not stored; those of the lower half fill up at the end.
  let shift := 64 - upper.log2
  let fraction := ((upper <<< shift) % Nat.pow 2 64 ||| lower >>> (64 - shift)) >>> 12
  (product >>> 125, Float.ofBits (.ofNat (((1023 - shift) <<< 52) + fraction)))

/-- The quarter turns nearest to an angle that is finite and not negative, modulo four, and what
is left of the angle. -/
def quarterTurns (x : Float) : Nat × Float :=
  if 536870912.0 ≤ x then
    let (n, rest) := eighthsOfLarge x
    let rest := if n % 2 = 1 then rest - 1.0 else rest
    ((n + 1) / 2 % 4, rest * 0.7853981633974483)
  else
    let n := (x * 1.2732395447351628).toUInt64.toNat
    let n := if n % 2 = 1 then n + 1 else n
    let y := Float.ofNat n
    let rest := ((x - y * 7.85398125648498535156e-1) - y * 3.77489470793079817668e-8)
      - y * 2.69515142907905952645e-15
    (n / 2 % 4, rest)

/-! ### The functions -/

/-- The sine of a small angle. -/
def sineNearZero (z : Float) : Float :=
  let zz := z * z
  z + z * zz * polynomial [1.58962301576546568060e-10, -2.50507477628578072866e-8,
    2.75573136213857245213e-6, -1.98412698295895385996e-4, 8.33333333332211858878e-3,
    -1.66666666666666307295e-1] zz

/-- The cosine of a small angle. -/
def cosineNearZero (z : Float) : Float :=
  let zz := z * z
  1.0 - 0.5 * zz + zz * zz * polynomial [-1.13585365213876817300e-11, 2.08757008419747316778e-9,
    -2.75573141792967388112e-7, 2.48015872888517045348e-5, -1.38888888888730564116e-3,
    4.16666666666665929218e-2] zz

/-- The tangent of a small angle. -/
def tangentNearZero (z : Float) : Float :=
  let zz := z * z
  if 1e-14 < zz then
    z + z * (zz * polynomial [-1.30936939181383734205e4, 1.15351664838587416140e6,
      -1.79565251976484877988e7] zz
      / polynomial [1.0, 1.36812963470692954678e4, -1.32089234440210967447e6,
        2.50083801823357915839e7, -5.38695755929454629881e7] zz)
  else z

/-- A function that changes its sign with the angle, of any angle: it is zero at zero, and an
infinite angle has no value. -/
def oddly (f : Float → Float) (x : Float) : Float :=
  if x == 0.0 || x.isNaN then x
  else if x.isInf then 0.0 / 0.0
  else if x < 0.0 then -f (-x) else f x

/-- The sine of an angle. -/
def sine : Float → Float :=
  oddly fun x =>
    match quarterTurns x with
    | (0, z) => sineNearZero z
    | (1, z) => cosineNearZero z
    | (2, z) => -sineNearZero z
    | (_, z) => -cosineNearZero z

/-- The cosine of an angle. -/
def cosine (x : Float) : Float :=
  if x.isNaN || x.isInf then 0.0 / 0.0
  else
    match quarterTurns x.abs with
    | (0, z) => cosineNearZero z
    | (1, z) => -sineNearZero z
    | (2, z) => -cosineNearZero z
    | (_, z) => sineNearZero z

/-- The tangent of an angle. -/
def tangent : Float → Float :=
  oddly fun x =>
    let (n, z) := quarterTurns x
    if n % 2 = 1 then -1.0 / tangentNearZero z else tangentNearZero z

end ListCalc.Number
