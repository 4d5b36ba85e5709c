/-
How a double is laid out.

A double has a sign bit, a biased exponent and the stored part of its mantissa.
A finite double is zero, or it stands for the proper binary number that
`Number.magnitude` reads off its bits, and it is that number packed again.

* `unpack_pack_finite` — packing loses nothing of a number that fits;
* `unpack_of_mantissa_ne_zero`, `proper_magnitude` — a finite double other than
  zero is its magnitude with its sign;
* `abs_of_not_isNegative`, `neg_abs_of_isNegative` — a finite double is its
  absolute value, or the negation of that if its sign bit is set.
-/
import ListCalc.Number
import ListCalc.Proofs.Number.Rounding
import Mathlib

namespace ListCalc

open Float.Model Float.Model.UnpackedFloat

/-! ### The parts of a packed double -/

variable (b : BitVec Format.binary64.numBits)

theorem toNat_unpackMantissa : (unpackMantissa b).toNat = b.toNat % 2 ^ 52 := by
  simp [unpackMantissa]

theorem toNat_unpackExponent : (unpackExponent b).toNat = b.toNat / 2 ^ 52 % 2 ^ 11 := by
  simp [unpackExponent, Nat.shiftRight_eq_div_pow]

theorem toNat_unpackSign : (unpackSign b).toNat = b.toNat / 2 ^ 63 := by
  have : b.toNat < 2 ^ 64 := b.isLt
  simp [unpackSign, Nat.shiftRight_eq_div_pow]
  omega

theorem toNat_packComponents (s : Sign) (e : BitVec 11) (m : BitVec 52) :
    (packComponents .binary64 s e m).toNat =
      s.toBitVec.toNat * 2 ^ 63 + e.toNat * 2 ^ 52 + m.toNat := by
  have he := e.isLt
  have hm := m.isLt
  rw [packComponents, BitVec.toNat_append, BitVec.toNat_append,
    ← Nat.shiftLeft_add_eq_or_of_lt hm, ← Nat.shiftLeft_add_eq_or_of_lt he,
    Nat.shiftLeft_eq, Nat.shiftLeft_eq]
  ring

theorem toNat_one_append (m : BitVec 52) : (1#1 ++ m).toNat = 2 ^ 52 + m.toNat := by
  rw [BitVec.toNat_append, ← Nat.shiftLeft_add_eq_or_of_lt m.isLt]
  rfl

/-! ### Packing and unpacking -/

/-- The bits of a finite double, as one number: the exponent counts from the least one, and the
leading bit of a mantissa of 53 bits is carried into it. -/
def bitsOf (s : Sign) (M : ℕ) (E : ℤ) : ℕ :=
  s.toBitVec.toNat * 2 ^ 63 + (E + 1074).toNat * 2 ^ 52 + M

variable {b}

theorem toNat_pack_finite {M : ℕ} {E : ℤ} (h : IsDouble M E) (s : Sign) :
    (UnpackedFloat.pack .binary64 (.finite s M E h.mantissa_pos)).toNat = bitsOf s M E := by
  have hlt := h.mantissa_lt
  have hge := h.exponent_ge
  have hle := h.exponent_le
  have hbiased : (E + (Format.binary64.exponentBias : ℕ) +
      (Format.binary64.mantissaBitsWithoutImplicit : ℕ)).toNat = (E + 1075).toNat := by
    rw [show Format.binary64.exponentBias = 1023 from rfl]
    show (E + (1023 : ℕ) + (52 : ℕ)).toNat = _
    omega
  simp only [UnpackedFloat.pack, hbiased]
  rw [if_neg (by show ¬ 2 ^ 11 ≤ _; omega)]
  by_cases hM : 2 ^ 52 ≤ M
  · have hlog : M.log2 + 1 = Format.binary64.mantissaBits :=
      congrArg (· + 1) ((Nat.log2_eq_iff h.mantissa_pos.ne').mpr ⟨hM, hlt⟩)
    rw [if_pos hlog, toNat_packComponents, BitVec.toNat_ofNat, BitVec.toNat_ofNat, bitsOf]
    omega
  · have hlog : M.log2 + 1 ≠ Format.binary64.mantissaBits := by
      have := (Nat.log2_lt h.mantissa_pos.ne').mpr (not_le.mp hM)
      show M.log2 + 1 ≠ 53
      omega
    have hE := h.full.resolve_left hM
    rw [if_neg hlog, toNat_packComponents, BitVec.toNat_ofNat, BitVec.toNat_ofNat, bitsOf]
    omega

theorem toNat_pack_zero (s : Sign) :
    (UnpackedFloat.pack .binary64 (.zero s)).toNat = bitsOf s 0 (-1074) := by
  cases s <;> rfl

/-- The least exponent is shared by all mantissas without a leading bit. -/
theorem unpack_of_exponent_eq_zero (he : (unpackExponent b).toNat = 0)
    (hm : 0 < (unpackMantissa b).toNat) : UnpackedFloat.unpack .binary64 b
      = .finite (Sign.ofBitVec (unpackSign b)) (unpackMantissa b).toNat (-1074) hm := by
  have hzero : unpackExponent b = 0#_ := BitVec.eq_of_toNat_eq he
  have hones : BitVec.ofNat Format.binary64.exponentBits 0 ≠ -1#_ := by decide
  have hmant : unpackMantissa b ≠ 0#_ := by
    intro h
    rw [h] at hm
    exact absurd hm (lt_irrefl 0)
  simp only [UnpackedFloat.unpack, hzero, hones, hmant, if_true, if_false, dite_false]
  rfl

/-- Another exponent adds a leading bit to the mantissa. -/
theorem unpack_of_exponent_ne_zero (he : (unpackExponent b).toNat ≠ 0)
    (hmax : (unpackExponent b).toNat ≠ 2047) : UnpackedFloat.unpack .binary64 b
      = .finite (Sign.ofBitVec (unpackSign b)) (2 ^ 52 + (unpackMantissa b).toNat)
          ((unpackExponent b).toNat - 1075) (by omega) := by
  have hzero : unpackExponent b ≠ 0#_ := fun h => he (congrArg BitVec.toNat h)
  have hones : unpackExponent b ≠ -1#_ := fun h => hmax (congrArg BitVec.toNat h)
  have hbias : (Format.binary64.exponentBias : ℤ) = 1023 := rfl
  have hwidth : ((Format.binary64.mantissaBitsWithoutImplicit : ℕ) : ℤ) = 52 := rfl
  simp only [UnpackedFloat.unpack, hzero, hones, hbias, hwidth, if_false,
    UnpackedFloat.finite.injEq, true_and]
  exact ⟨toNat_one_append (unpackMantissa b), by omega⟩

theorem sign_of_bits {M : ℕ} {E : ℤ} (h : IsDouble M E) {s : Sign} (hb : b.toNat = bitsOf s M E) :
    Sign.ofBitVec (unpackSign b) = s := by
  have hlt := h.mantissa_lt
  have hle := h.exponent_le
  rw [← Sign.ofBitVec_toBitVec s]
  congr 1
  apply BitVec.eq_of_toNat_eq
  rw [toNat_unpackSign, hb, bitsOf]
  omega

/-- Bits that stand for a mantissa and an exponent are unpacked to these. -/
theorem unpack_of_bits {M : ℕ} {E : ℤ} (h : IsDouble M E) {s : Sign}
    (hb : b.toNat = bitsOf s M E) :
    UnpackedFloat.unpack .binary64 b = .finite s M E h.mantissa_pos := by
  have hpos := h.mantissa_pos
  have hlt := h.mantissa_lt
  have hge := h.exponent_ge
  have hle := h.exponent_le
  have hm := toNat_unpackMantissa b
  have he := toNat_unpackExponent b
  rw [hb, bitsOf] at hm he
  by_cases hM : 2 ^ 52 ≤ M
  · rw [unpack_of_exponent_ne_zero (by omega) (by omega), sign_of_bits h hb]
    simp only [UnpackedFloat.finite.injEq, true_and]
    omega
  · have hE := h.full.resolve_left hM
    rw [unpack_of_exponent_eq_zero (by omega) (by omega), sign_of_bits h hb]
    simp only [UnpackedFloat.finite.injEq, true_and]
    omega

theorem unpack_of_bits_zero {s : Sign} (hb : b.toNat = bitsOf s 0 (-1074)) :
    UnpackedFloat.unpack .binary64 b = .zero s := by
  obtain rfl : b = UnpackedFloat.pack .binary64 (.zero s) :=
    BitVec.eq_of_toNat_eq (hb.trans (toNat_pack_zero s).symm)
  exact unpack_packedZero

/-- **Packing loses nothing of a number that fits.** -/
theorem unpack_pack_finite {M : ℕ} {E : ℤ} (h : IsDouble M E) (s : Sign) :
    (Float.Model.pack (.finite s M E h.mantissa_pos)).unpack = .finite s M E h.mantissa_pos :=
  unpack_of_bits h (toNat_pack_finite h s)

theorem exponent_ne_of_isFinite (h : (UnpackedFloat.unpack .binary64 b).isFinite = true) :
    b.toNat / 2 ^ 52 % 2 ^ 11 ≠ 2047 := by
  intro he
  have hones : unpackExponent b = -1#_ :=
    BitVec.eq_of_toNat_eq ((toNat_unpackExponent b).trans he)
  simp only [UnpackedFloat.unpack, hones, if_true] at h
  split at h <;> cases h

/-! ### The magnitude of a double -/

namespace Number

variable {x : Float}

/-- The sign that the sign bit of a number stands for. -/
def sign (x : Float) : Sign := if isNegative x then .negative else .positive

/-- A finite number has a bit in its exponent that is not set. -/
theorem exponentBits_ne_of_isFinite (hx : x.isFinite = true) : exponentBits x ≠ 2047 :=
  exponent_ne_of_isFinite hx

theorem magnitude_of_subnormal (he : exponentBits x = 0) :
    magnitude x = ⟨fractionBits x, -1074, false⟩ := if_pos he

theorem magnitude_of_normal (he : exponentBits x ≠ 0) :
    magnitude x = ⟨2 ^ 52 + fractionBits x, exponentBits x - 1075,
      fractionBits x == 0 && exponentBits x != 1⟩ := if_neg he

/-- The bits of a number are those of its sign and its magnitude. -/
theorem toNat_toBits (x : Float) :
    x.toBits.toNat = bitsOf (sign x) (magnitude x).mantissa (magnitude x).exponent := by
  have hlt : x.toBits.toNat < 2 ^ 64 := x.toBits.toBitVec.isLt
  have hsign : (sign x).toBitVec.toNat = x.toBits.toNat / 2 ^ 63 := by
    by_cases hs : 0x8000000000000000 ≤ x.toBits.toNat
    · rw [sign, isNegative, decide_eq_true hs]
      show 1 = _
      omega
    · rw [sign, isNegative, decide_eq_false hs]
      show 0 = _
      omega
  rw [bitsOf, hsign]
  by_cases he : exponentBits x = 0
  · rw [magnitude_of_subnormal he]
    simp only [exponentBits, fractionBits] at he ⊢
    omega
  · rw [magnitude_of_normal he]
    simp only [exponentBits, fractionBits] at he ⊢
    omega

/-- **A finite number other than zero has a proper magnitude.** -/
theorem proper_magnitude (hx : x.isFinite = true) (hm : (magnitude x).mantissa ≠ 0) :
    (magnitude x).Proper := by
  have hones := exponentBits_ne_of_isFinite hx
  have hlt : exponentBits x < 2048 := Nat.mod_lt _ (by decide)
  have hfrac : fractionBits x < 2 ^ 52 := Nat.mod_lt _ (by decide)
  by_cases he : exponentBits x = 0
  · rw [magnitude_of_subnormal he] at hm ⊢
    dsimp only at hm
    constructor
    · constructor <;> dsimp only <;> omega
    · simp
  · rw [magnitude_of_normal he]
    constructor
    · constructor <;> dsimp only <;> omega
    · simp
      omega

theorem unpack_of_toBits {M : ℕ} {E : ℤ} (h : IsDouble M E) {s : Sign}
    (hx : x.toBits.toNat = bitsOf s M E) : x.toModel.unpack = .finite s M E h.mantissa_pos :=
  unpack_of_bits h hx

/-- A number other than zero is its magnitude with its sign. -/
theorem unpack_of_mantissa_ne_zero (hx : x.isFinite = true) (hm : (magnitude x).mantissa ≠ 0) :
    x.toModel.unpack = .finite (sign x) (magnitude x).mantissa (magnitude x).exponent
      (Nat.pos_of_ne_zero hm) :=
  unpack_of_toBits (proper_magnitude hx hm).toIsDouble (toNat_toBits x)

theorem exponent_of_mantissa_eq_zero (hm : (magnitude x).mantissa = 0) :
    (magnitude x).exponent = -1074 := by
  by_cases he : exponentBits x = 0
  · rw [magnitude_of_subnormal he]
  · rw [magnitude_of_normal he] at hm
    dsimp only at hm
    omega

theorem toNat_toBits_of_zero (hm : (magnitude x).mantissa = 0) :
    x.toBits.toNat = bitsOf (sign x) 0 (-1074) := by
  rw [toNat_toBits, hm, exponent_of_mantissa_eq_zero hm]

theorem unpack_of_mantissa_eq_zero (hm : (magnitude x).mantissa = 0) :
    x.toModel.unpack = .zero (sign x) :=
  unpack_of_bits_zero (toNat_toBits_of_zero hm)

/-! ### Signs -/

/-- A number is what it is unpacked to, packed again. -/
theorem ofModel_pack_unpack (x : Float) : Float.ofModel (.pack x.toModel.unpack) = x :=
  Float.ofBits_toBits x

/-- A finite number whose sign bit is not set is its absolute value. -/
theorem abs_of_not_isNegative (hx : x.isFinite = true) (hs : isNegative x = false) :
    x.abs = x := by
  have hsign : sign x = .positive := by rw [sign, hs]; rfl
  show Float.ofModel (.pack x.toModel.unpack.abs) = x
  suffices h : x.toModel.unpack.abs = x.toModel.unpack by rw [h, ofModel_pack_unpack]
  by_cases hm : (magnitude x).mantissa = 0
  · rw [unpack_of_mantissa_eq_zero hm, hsign]
    rfl
  · rw [unpack_of_mantissa_ne_zero hx hm, hsign]
    rfl

/-- A finite number whose sign bit is set is the negation of its absolute value. -/
theorem neg_abs_of_isNegative (hx : x.isFinite = true) (hs : isNegative x = true) :
    -x.abs = x := by
  have hsign : sign x = .negative := by rw [sign, hs]; rfl
  show Float.ofModel (.pack (Float.Model.pack x.toModel.unpack.abs).unpack.neg) = x
  suffices h : (Float.Model.pack x.toModel.unpack.abs).unpack.neg = x.toModel.unpack by
    rw [h, ofModel_pack_unpack]
  by_cases hm : (magnitude x).mantissa = 0
  · rw [unpack_of_mantissa_eq_zero hm, hsign]
    rfl
  · rw [unpack_of_mantissa_ne_zero hx hm, hsign, UnpackedFloat.abs,
      unpack_pack_finite (proper_magnitude hx hm).toIsDouble]
    rfl

end Number

end ListCalc
