/-
Decimals that are too large.

Every positive number is framed by a mantissa of at most 53 bits at some exponent,
and the only thing that can keep it from being rounded to a double is that the
exponent is too large.  That is so from half a unit above the largest double on,
`Number.limit`, and a decimal with digits behind the point is refused exactly then.

* `exists_framed` — every positive number is framed;
* `isFinite_div_iff` — a quotient is rounded to a double if it is below the limit;
* `Number.ofDecimal?_eq_none_iff` — decimals from the limit on are refused, and no
  others.
-/
import ListCalc.Proofs.Number.Literal
import Mathlib.Data.Int.Log

namespace ListCalc

open Float.Model Float.Model.UnpackedFloat

/-- The least number that is rounded to no double: the largest double and half a unit. -/
def Number.limit : ℚ := 2 ^ (1024 : ℤ) - 2 ^ (970 : ℤ)

theorem Number.limit_eq : limit = (2 ^ 53 - 1 / 2) * 2 ^ (971 : ℤ) := by
  have hhigh : (2 : ℚ) ^ (1024 : ℤ) = 2 ^ (53 : ℕ) * 2 ^ (971 : ℤ) := by
    rw [← zpow_natCast, ← zpow_add₀ two_ne_zero]
    rfl
  have hlow : (2 : ℚ) ^ (971 : ℤ) = 2 ^ (970 : ℤ) * 2 := zpow_add_one₀ two_ne_zero 970
  rw [limit, hhigh, hlow]
  generalize (2 : ℚ) ^ (970 : ℤ) = unit
  ring

/-- Numbers of units of `2 ^ E` are below the limit if neither is too large. -/
theorem Number.mul_zpow_lt_limit {z : ℚ} {E : ℤ} (hz : z < 2 ^ 53 - 1 / 2) (hE : E ≤ 971) :
    z * 2 ^ E < limit := by
  rw [limit_eq]
  calc z * 2 ^ E < (2 ^ 53 - 1 / 2) * 2 ^ E := mul_lt_mul_of_pos_right hz (by positivity)
    _ ≤ (2 ^ 53 - 1 / 2) * 2 ^ (971 : ℤ) :=
      mul_le_mul_of_nonneg_left (zpow_le_zpow_right₀ one_le_two hE) (by norm_num)

theorem Number.limit_le_mul_zpow {z : ℚ} {E : ℤ} (hz : 2 ^ 53 - 1 / 2 ≤ z) (hE : 971 ≤ E) :
    limit ≤ z * 2 ^ E := by
  rw [limit_eq]
  exact mul_le_mul hz (zpow_le_zpow_right₀ one_le_two hE) (by positivity)
    (le_trans (by norm_num) hz)

/-! ### Frames -/

/-- Every number has a nearest mantissa. -/
theorem exists_nearest {z : ℚ} (hz : 0 ≤ z) : ∃ M, Nearest M z := by
  have hlow := Nat.floor_le hz
  have hhigh := Nat.lt_floor_add_one z
  generalize ⌊z⌋₊ = m at hlow hhigh
  rcases lt_trichotomy z (m + 1 / 2) with h | h | h
  · exact ⟨m, ⟨by linarith, h.le⟩, fun _ => ⟨by linarith, h⟩⟩
  · -- Half way between two mantissas, one of them is even.
    rcases Nat.mod_two_eq_zero_or_one m with hm | hm
    · exact ⟨m, ⟨by linarith, h.le⟩, fun hodd => by omega⟩
    · refine ⟨m + 1, ⟨?_, ?_⟩, fun hodd => by omega⟩ <;> push_cast <;> linarith
  · refine ⟨m + 1, ⟨?_, ?_⟩, fun _ => ⟨?_, ?_⟩⟩ <;> push_cast <;> linarith

/-- **Every positive number is framed.** -/
theorem exists_framed {x : ℚ} (hx : 0 < x) : ∃ M E, Framed (x / 2 ^ E) M E := by
  have hlow := Int.zpow_log_le_self (b := 2) (by decide) hx
  have hhigh := Int.lt_zpow_succ_log_self (b := 2) (by decide) x
  push_cast at hlow hhigh
  obtain ⟨E, hE⟩ : ∃ E, E = max (Int.log 2 x - 52) (-1074) := ⟨_, rfl⟩
  have hpow : (0 : ℚ) < 2 ^ E := by positivity
  obtain ⟨M, hM⟩ := exists_nearest (div_nonneg hx.le hpow.le)
  refine ⟨M, E, by omega, ?_, ?_, hM⟩
  · rw [div_lt_iff₀ hpow, ← zpow_natCast, ← zpow_add₀ two_ne_zero]
    exact hhigh.trans_le (zpow_le_zpow_right₀ one_le_two (by push_cast; omega))
  · refine or_iff_not_imp_right.mpr fun hleast => ?_
    rw [le_div_iff₀ hpow, ← zpow_natCast, ← zpow_add₀ two_ne_zero]
    exact (zpow_le_zpow_right₀ one_le_two (by push_cast; omega)).trans hlow

/-- The number `x` is rounded to the mantissa `M` at the exponent `E`, which is too large for a
double from the limit on. -/
structure Rounded (x : ℚ) (M : ℕ) (E : ℤ) : Prop where
  mantissa_lt : M < 2 ^ 53
  exponent_ge : -1074 ≤ E
  full : 2 ^ 52 ≤ M ∨ E = -1074
  exponent_le_iff : E ≤ 971 ↔ x < Number.limit

/-- What a frame has room for is rounded to the mantissa of the frame. -/
theorem Framed.rounded {z : ℚ} {M : ℕ} {E : ℤ} (h : Framed z M E) (hM : M < 2 ^ 53) :
    Rounded (z * 2 ^ E) M E := by
  obtain ⟨⟨hlow, hhigh⟩, hodd⟩ := h.nearest
  have hfull : 2 ^ 52 ≤ M ∨ E = -1074 := by
    refine h.ge.imp_left fun hge => ?_
    have : ((2 ^ 52 : ℕ) : ℚ) < M + 1 := by
      push_cast
      linarith
    exact Nat.lt_succ_iff.mp (by exact_mod_cast this)
  have hlt : z < 2 ^ 53 - 1 / 2 := by
    -- The largest mantissa is odd, so half a unit above it belongs to the next one.
    by_cases hlast : M = 2 ^ 53 - 1
    · have hhalf := (hodd (by omega)).2
      rw [hlast] at hhalf
      push_cast [show 1 ≤ 2 ^ 53 by decide] at hhalf
      linarith
    · have : ((M + 2 : ℕ) : ℚ) ≤ (2 ^ 53 : ℕ) := by exact_mod_cast (by omega : M + 2 ≤ 2 ^ 53)
      push_cast at this
      linarith
  refine ⟨hM, h.exponent_ge, hfull, Number.mul_zpow_lt_limit hlt, ?_⟩
  contrapose!
  intro hE
  have hz : 2 ^ 52 ≤ z := h.ge.resolve_right (by omega)
  have hdouble : z * 2 ^ E = 2 * z * 2 ^ (E - 1) := by
    rw [zpow_sub_one₀ two_ne_zero]
    ring
  rw [hdouble]
  exact Number.limit_le_mul_zpow (by linarith) (by omega)

/-- What is rounded up to a mantissa that is too long is a power of two. -/
theorem Framed.rounded_of_overflow {z : ℚ} {E : ℤ} (h : Framed z (2 ^ 53) E) :
    Rounded (z * 2 ^ E) (2 ^ 52) (E + 1) := by
  have hE := h.exponent_ge
  have hlt := h.lt
  have hlow := h.nearest.1.1
  push_cast at hlow
  have hhalve : z * 2 ^ E = z / 2 * 2 ^ (E + 1) := by
    rw [zpow_add_one₀ two_ne_zero]
    ring
  refine ⟨by decide, by omega, .inl (Nat.le_refl _), fun hle => ?_, ?_⟩
  · rw [hhalve]
    exact Number.mul_zpow_lt_limit (by linarith) hle
  · contrapose!
    intro hgt
    exact Number.limit_le_mul_zpow hlow (by omega)

/-- Cutting a mantissa that is too long gives what the framed number is rounded to. -/
theorem Framed.exists_rounded {z : ℚ} {M : ℕ} {E : ℤ} (h : Framed z M E) :
    ∃ M' E', shiftToTargetExponent .binary64 M E .exact = (⟨M', false, false⟩, E') ∧
      Rounded (z * 2 ^ E) M' E' := by
  have hle : M ≤ 2 ^ 53 := by
    have : (M : ℚ) < (2 ^ 53 : ℕ) + 1 := by
      push_cast
      linarith [h.nearest.1.1, h.lt]
    exact Nat.lt_succ_iff.mp (by exact_mod_cast this)
  rcases hle.lt_or_eq with hM | rfl
  · have hrounded := h.rounded hM
    have hcut := shiftToTargetExponent_eq (d := 0) .exact h.exponent_ge hM hrounded.full
    rw [Nat.cast_zero, sub_zero] at hcut
    exact ⟨M, E, hcut, hrounded⟩
  · have hE := h.exponent_ge
    have hcut := shiftToTargetExponent_of_overflow (E := E + 1) (by omega)
    rw [add_sub_cancel_right] at hcut
    exact ⟨2 ^ 52, E + 1, hcut, h.rounded_of_overflow⟩

/-! ### Quotients -/

/-- An exponent that is too large is packed as infinity. -/
theorem pack_of_exponent_gt {M : ℕ} {E : ℤ} (hM : 0 < M) (hE : 971 < E) :
    (Float.Model.pack (.finite .positive M E hM)).unpack.isFinite = false := by
  have hbiased : 2 ^ Format.binary64.exponentBits ≤ (E + (Format.binary64.exponentBias : ℕ) +
      (Format.binary64.mantissaBitsWithoutImplicit : ℕ)).toNat + 1 := by
    show 2 ^ 11 ≤ (E + (1023 : ℕ) + (52 : ℕ)).toNat + 1
    omega
  show (UnpackedFloat.unpack .binary64 (UnpackedFloat.pack .binary64 _)).isFinite = false
  rw [UnpackedFloat.pack]
  dsimp only
  rw [if_pos hbiased]
  decide +kernel

/-- What a number is rounded to is packed as a double if the number is below the limit. -/
theorem Rounded.isFinite_iff {x : ℚ} {M : ℕ} {E : ℤ} (h : Rounded x M E) :
    (Float.Model.pack (if h : M = 0 then .zero .positive
      else .finite .positive M E (Nat.pos_of_ne_zero h))).unpack.isFinite = true ↔
      x < Number.limit := by
  rw [← h.exponent_le_iff]
  by_cases hM : M = 0
  · have hE := h.full.resolve_left (by omega)
    rw [dif_pos hM]
    exact iff_of_true (by decide +kernel) (by omega)
  · rw [dif_neg hM]
    by_cases hE : E ≤ 971
    · rw [unpack_pack_finite ⟨Nat.pos_of_ne_zero hM, h.mantissa_lt, h.exponent_ge, hE, h.full⟩]
      exact iff_of_true rfl hE
    · rw [pack_of_exponent_gt _ (not_le.mp hE)]
      exact iff_of_false (by decide) hE

/-- **A quotient is rounded to a double exactly if it is below the limit.** -/
theorem isFinite_div_iff {u v : UnpackedFloat} {a b : ℚ} (hu : AmountsTo u a)
    (hv : AmountsTo v b) :
    (Float.ofModel (.pack (UnpackedFloat.div .binary64 u v))).isFinite = true ↔
      a / b < Number.limit := by
  obtain ⟨m₁, e₁, h₁, rfl, rfl⟩ := hu
  obtain ⟨m₂, e₂, h₂, rfl, rfl⟩ := hv
  obtain ⟨M, E, hframe⟩ := exists_framed (x := m₁ * 2 ^ e₁ / (m₂ * 2 ^ e₂))
    (by have := h₁; have := h₂; positivity)
  obtain ⟨M', E', hcut, hrounded⟩ := hframe.exists_rounded
  rw [div_mul_cancel₀ _ (by positivity)] at hrounded
  rw [div_eq_dite h₁ h₂ hframe hcut]
  exact hrounded.isFinite_iff

/-! ### Decimals -/

namespace Number

/-- The limit has 309 digits. -/
theorem limit_bounds : (10 : ℚ) ^ (-330 : ℤ) < limit ∧ limit < 10 ^ (310 : ℤ) := by
  have hlarge : (10 : ℚ) ^ (-310 : ℤ) < 2 ^ (-1024 : ℤ) :=
    Binary.ten_zpow_lt_two_zpow (by decide) (by decide)
  rw [zpow_neg, zpow_neg, inv_lt_inv₀ (by positivity) (by positivity)] at hlarge
  constructor
  · calc (10 : ℚ) ^ (-330 : ℤ) < 10 ^ (0 : ℤ) := zpow_lt_zpow_right₀ (by norm_num) (by decide)
      _ = 1 * 2 ^ (0 : ℤ) := by norm_num
      _ < limit := mul_zpow_lt_limit (by norm_num) (by decide)
  · exact (sub_lt_self _ (by positivity)).trans hlarge

/-- A number has no more decimal digits than binary ones. -/
theorem length_digitChars_le (n : ℕ) : (Decimal.digitChars n).length ≤ n.log2 + 1 := by
  rw [Decimal.digitChars, Nat.length_toDigits_le_iff (by decide) n.log2.succ_pos]
  calc n < 2 ^ (n.log2 + 1) := n.lt_log2_self
    _ ≤ 10 ^ (n.log2 + 1) := Nat.pow_le_pow_left (by decide) _

/-- **A decimal with digits behind the point is refused exactly if it is too large.** -/
theorem ofDecimal?_eq_none_iff {n p : ℕ} (hp : 0 < p) :
    ofDecimal? ⟨n, -p⟩ = none ↔ limit ≤ n / 10 ^ p := by
  obtain ⟨hleast, hmost⟩ := limit_bounds
  rcases Nat.eq_zero_or_pos n with rfl | hn
  · have hpos : 0 < limit := (by positivity : (0 : ℚ) < 10 ^ (-330 : ℤ)).trans hleast
    rw [ofDecimal?, if_pos rfl]
    exact iff_of_false (by simp) (by simpa using hpos)
  obtain ⟨hlow, hhigh⟩ := length_digitChars_bounds hn
  have hpow : (0 : ℚ) < 10 ^ p := by positivity
  have hone : (1 : ℚ) ≤ 10 := by norm_num
  have hsign : decide (-(p : ℤ) < 0) = true := by simpa using hp
  rw [ofDecimal?]
  simp only [hn.ne', if_false, hsign, Int.natAbs_neg, Int.natAbs_natCast]
  generalize hlen : ((Decimal.digitChars n).length : ℤ) = len at hlow hhigh ⊢
  split
  · next hsize =>
    -- The digits alone show that the number is too large.
    refine iff_of_true rfl (hmost.le.trans ?_)
    rw [le_div_iff₀ hpow, ← zpow_natCast, ← zpow_add₀ (by norm_num)]
    exact (zpow_le_zpow_right₀ hone (by omega)).trans hlow
  split
  · next hsize =>
    refine iff_of_false (by simp) (not_le.mpr (lt_trans ?_ hleast))
    rw [div_lt_iff₀ hpow, ← zpow_natCast, ← zpow_add₀ (by norm_num)]
    exact hhigh.trans_le (zpow_le_zpow_right₀ hone (by omega))
  · next hsize =>
    -- The exponent does not reach what is decided before the quotient is taken.
    have hlog := length_digitChars_le n
    obtain ⟨u, v, hu, hv, hdiv⟩ := ofScientific_eq_div hn hp (by omega)
    have hfinite := isFinite_div_iff hu hv
    rw [hdiv]
    split
    · next h => exact iff_of_false (by simp) (not_le.mpr (hfinite.mp h))
    · next h => exact iff_of_true rfl (not_lt.mp fun hlt => h (hfinite.mpr hlt))

end Number

end ListCalc
