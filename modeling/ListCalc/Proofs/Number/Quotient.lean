/-
Decimals as doubles.

A decimal with digits behind the point is a quotient by a power of ten.  Where
both sides of the quotient are doubles they are divided as such, and otherwise
the quotient is rounded as a whole; both are the rounding of the exact quotient.

* `ofScientific_eq` — a decimal in the interval of a double is read as that double.
-/
import ListCalc.Proofs.Number.Layout

namespace ListCalc

open Float.Model Float.Model.UnpackedFloat

/-- An unpacked number is positive and has the value `v`. -/
def AmountsTo (u : UnpackedFloat) (v : ℚ) : Prop :=
  ∃ m e h, u = .finite .positive m e h ∧ (m : ℚ) * 2 ^ e = v

/-- Rounding leaves what fits as it is. -/
theorem roundWithAccuracy_of_isDouble {M : ℕ} {E : ℤ} (h : IsDouble M E) (s : Sign) :
    roundWithAccuracy .binary64 s M E .exact = .finite s M E h.mantissa_pos := by
  have hlt : (M : ℚ) < 2 ^ 53 := by exact_mod_cast h.mantissa_lt
  have hframe : Framed ((M : ℚ) / 2 ^ 0) M E := by
    rw [pow_zero, div_one]
    exact ⟨h.exponent_ge, hlt, h.full.imp_left fun hM => by exact_mod_cast hM, nearest_self M⟩
  have hround := roundWithAccuracy_of_framed s (represents_exact M) hframe
    h.shiftToTargetExponent_eq h.mantissa_pos
  rwa [Nat.cast_zero, sub_zero] at hround

/-- A whole number of at most 53 bits, with zeros behind it, has 53 bits. -/
theorem shiftLeft_bounds {n : ℕ} (hpos : 0 < n) (hlt : n < 2 ^ 53) :
    2 ^ 52 ≤ n <<< (52 - n.log2) ∧ n <<< (52 - n.log2) < 2 ^ 53 := by
  have hlog : n.log2 < 53 := (Nat.log2_lt hpos.ne').mpr hlt
  have hpow : 2 ^ n.log2 * 2 ^ (52 - n.log2) = 2 ^ 52 := by
    rw [← pow_add]
    congr 1
    omega
  rw [Nat.shiftLeft_eq]
  constructor
  · calc 2 ^ 52 = 2 ^ n.log2 * 2 ^ (52 - n.log2) := hpow.symm
      _ ≤ n * 2 ^ (52 - n.log2) := Nat.mul_le_mul_right _ (Nat.log2_self_le hpos.ne')
  · calc n * 2 ^ (52 - n.log2) < 2 ^ (n.log2 + 1) * 2 ^ (52 - n.log2) :=
          Nat.mul_lt_mul_of_pos_right n.lt_log2_self (by positivity)
      _ = 2 ^ 53 := by rw [pow_succ, mul_right_comm, hpow]; rfl

/-- So it is a double, also times a small power of two. -/
theorem isDouble_shiftLeft {n k : ℕ} (hpos : 0 < n) (hlt : n < 2 ^ 53) (hk : k ≤ 22) :
    IsDouble (n <<< (52 - n.log2)) (n.log2 - 52 + k) := by
  have hlog : n.log2 < 53 := (Nat.log2_lt hpos.ne').mpr hlt
  obtain ⟨hlow, hhigh⟩ := shiftLeft_bounds hpos hlt
  exact ⟨by omega, hhigh, by omega, by omega, .inl hlow⟩

theorem amountsTo_shiftLeft {n k : ℕ} (hpos : 0 < n) (hlt : n < 2 ^ 53) (hk : k ≤ 22) :
    AmountsTo (.finite .positive (n <<< (52 - n.log2)) (n.log2 - 52 + k)
      (isDouble_shiftLeft hpos hlt hk).mantissa_pos) (n * 2 ^ k) := by
  have hlog : n.log2 < 53 := (Nat.log2_lt hpos.ne').mpr hlt
  refine ⟨_, _, _, rfl, ?_⟩
  rw [Nat.shiftLeft_eq, Nat.cast_mul, Nat.cast_pow, Nat.cast_two, mul_assoc, ← zpow_natCast,
    ← zpow_natCast, ← zpow_add₀ two_ne_zero]
  congr 2
  omega

theorem ofNat_eq_finite {n : ℕ} (hpos : 0 < n) (hlt : n < 2 ^ 53) :
    UnpackedFloat.ofNat .binary64 n =
      .finite .positive (n <<< (52 - n.log2)) (n.log2 - 52 + (0 : ℕ))
        (isDouble_shiftLeft (k := 0) hpos hlt (by decide)).mantissa_pos := by
  have hlog : n.log2 < 53 := (Nat.log2_lt hpos.ne').mpr hlt
  have htarget : Format.binary64.targetExponent (totalExponent n 0) = n.log2 - 52 := by
    rw [targetExponent_binary64, totalExponent]
    omega
  have hshift : (0 - ((n.log2 : ℤ) - 52)).toNat = 52 - n.log2 := by omega
  have hexp : (0 : ℤ) - (52 - n.log2 : ℕ) = n.log2 - 52 + (0 : ℕ) := by omega
  rw [UnpackedFloat.ofNat, UnpackedFloat.ofInt, UnpackedFloat.normalize,
    Int.compare_eq_gt.mpr (by omega)]
  simp only [UnpackedFloat.round, Int.toNat_natCast, htarget, decreaseExponent, hshift, hexp]
  exact roundWithAccuracy_of_isDouble (isDouble_shiftLeft hpos hlt (by decide)) _

theorem amountsTo_toFloat {n : ℕ} (hpos : 0 < n) (hlt : n < 2 ^ 53) :
    AmountsTo n.toUInt64.toFloat.toModel.unpack n := by
  have hn : n.toUInt64.toNat = n := by
    show n % 2 ^ 64 = n
    omega
  show AmountsTo (Float.Model.pack (UnpackedFloat.ofNat .binary64 n.toUInt64.toNat)).unpack n
  have hdouble := isDouble_shiftLeft (k := 0) hpos hlt (by decide)
  have h := amountsTo_shiftLeft (k := 0) hpos hlt (by decide)
  rw [pow_zero, mul_one] at h
  rwa [hn, ofNat_eq_finite hpos hlt, unpack_pack_finite hdouble]

/-- A power of ten is a power of five times a power of two. -/
theorem toBits_powerOfTen : ∀ e : Fin 23,
    Float.exactlyRepresentablePowersOfTen[e].toBits.toNat =
      bitsOf .positive (5 ^ e.val <<< (52 - (5 ^ e.val).log2)) ((5 ^ e.val).log2 - 52 + e.val) := by
  decide +kernel

theorem amountsTo_powerOfTen (e : Fin 23) :
    AmountsTo Float.exactlyRepresentablePowersOfTen[e].toModel.unpack (10 ^ e.val) := by
  have hle : e.val ≤ 22 := Nat.lt_succ_iff.mp e.isLt
  have hpos : 0 < 5 ^ e.val := by positivity
  have hlt : 5 ^ e.val < 2 ^ 53 := (Nat.pow_le_pow_right (by decide) hle).trans_lt (by decide)
  have h := amountsTo_shiftLeft hpos hlt hle
  rw [Nat.cast_pow, ← mul_pow] at h
  rw [Number.unpack_of_toBits (isDouble_shiftLeft hpos hlt hle) (toBits_powerOfTen e)]
  convert h using 2
  norm_num

/-! ### Decimals with digits behind the point -/

/-- A decimal is the rounded quotient of its digits and a power of ten. -/
theorem ofScientific_eq_div {n e : ℕ} (hpos : 0 < n) (he : 0 < e) (hle : e ≤ 2048 + n.log2) :
    ∃ u v, AmountsTo u n ∧ AmountsTo v (10 ^ e) ∧
      Float.ofScientific n true e = .ofModel (.pack (UnpackedFloat.div .binary64 u v)) := by
  rw [Float.ofScientific]
  split
  · next h =>
    exact ⟨_, _, amountsTo_toFloat hpos h.1, amountsTo_powerOfTen ⟨e, Nat.lt_succ_of_le h.2⟩, rfl⟩
  · refine ⟨.finite .positive n 0 hpos, .finite .positive (10 ^ e) 0 (by positivity),
      ⟨_, _, _, rfl, by simp⟩, ⟨_, _, _, rfl, by simp⟩, ?_⟩
    have hneg : Int.negOfNat e = -(e : ℤ) := by cases e <;> rfl
    show Float.ofModel (.pack (UnpackedFloat.ofScientific .binary64 n (Int.negOfNat e))) = _
    rw [hneg, UnpackedFloat.ofScientific, dif_neg hpos.ne',
      if_neg (by show ¬ _ > (2 ^ 11 : ℤ); omega),
      if_neg (by show ¬ _ < -((2 ^ 11 : ℤ) + _); omega), if_neg (by omega)]
    simp only [neg_neg, Int.toNat_natCast]

/-- **A decimal in the interval of a double is read as that double.** -/
theorem ofScientific_eq {b : Binary} (hb : b.Proper) {n e : ℕ} (hpos : 0 < n) (he : 0 < e)
    (hle : e ≤ 2048) (h : b.RoundsTo (n / 10 ^ e)) :
    Float.ofScientific n true e =
      .ofModel (.pack (.finite .positive b.mantissa b.exponent hb.mantissa_pos)) := by
  obtain ⟨u, v, ⟨m₁, e₁, h₁, rfl, hu⟩, ⟨m₂, e₂, h₂, rfl, hv⟩, heq⟩ :=
    ofScientific_eq_div hpos he (hle.trans (Nat.le_add_right _ _))
  rw [heq, div_eq_finite hb h₁ h₂ (by rwa [hu, hv])]

end ListCalc
