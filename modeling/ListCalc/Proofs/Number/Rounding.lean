/-
Rounding to the nearest double.

An extended mantissa is a mantissa with two more bits: whether half a unit is
reached, and whether anything is left beyond that.  `Represents` says which
rational numbers it stands for, and shifting it to the right halves them.

`Binary.RoundsTo` is the interval of a binary number, as rationals.  A quotient
that lies in the interval of a proper double is rounded to that double.

* `Represents.roundedMantissa_eq` — an extended mantissa is rounded to the nearest
  mantissa, and between two of them to the even one;
* `roundWithAccuracy_eq_dite` — what is rounded at the exponent of the result
  is the nearest mantissa there;
* `div_eq_finite` — a quotient in the interval of a double is that double.
-/
import ListCalc.Decimal.Shortest
import Mathlib.Algebra.Order.Field.Power
import Mathlib.Algebra.Order.Field.Rat
import Mathlib.Tactic.FieldSimp
import Mathlib.Tactic.Linarith
import Mathlib.Tactic.Positivity
import Mathlib.Tactic.Ring

namespace ListCalc

open Float.Model Float.Model.UnpackedFloat

/-! ### Extended mantissas -/

/-- An extended mantissa stands for `x`: the round bit tells whether half a unit above the mantissa
is reached, and the sticky bit whether `x` is larger than what is reached. -/
def Represents : ExtendedMantissa → ℚ → Prop
  | ⟨m, false, false⟩, x => x = m
  | ⟨m, false, true⟩, x => m < x ∧ x < m + 1 / 2
  | ⟨m, true, false⟩, x => x = m + 1 / 2
  | ⟨m, true, true⟩, x => m + 1 / 2 < x ∧ x < m + 1

/-- The mantissa is the whole part of what is represented. -/
theorem Represents.mantissa_le {em : ExtendedMantissa} {x : ℚ} (h : Represents em x) :
    (em.mantissa : ℚ) ≤ x ∧ x < em.mantissa + 1 := by
  match em, h with
  | ⟨m, false, false⟩, (h : x = m) => constructor <;> linarith
  | ⟨m, false, true⟩, ⟨hl, hh⟩ => constructor <;> linarith
  | ⟨m, true, false⟩, (h : x = m + 1 / 2) => constructor <;> linarith
  | ⟨m, true, true⟩, ⟨hl, hh⟩ => constructor <;> linarith

/-- The mantissa `M` is nearest to `x`, and it is even if there is another one as near. -/
def Nearest (M : ℕ) (x : ℚ) : Prop :=
  (M - 1 / 2 ≤ x ∧ x ≤ M + 1 / 2) ∧ (M % 2 = 1 → M - 1 / 2 < x ∧ x < M + 1 / 2)

theorem nearest_self (M : ℕ) : Nearest M M :=
  ⟨⟨by linarith, by linarith⟩, fun _ => ⟨by linarith, by linarith⟩⟩

theorem eq_of_cast_lt_succ {m n : ℕ} (hmn : (m : ℚ) < n + 1) (hnm : (n : ℚ) < m + 1) : m = n := by
  have : m < n + 1 := by exact_mod_cast hmn
  have : n < m + 1 := by exact_mod_cast hnm
  omega

/-- Half way between two mantissas the even one is nearest. -/
theorem Nearest.eq_of_half {m M : ℕ} (h : Nearest M (m + 1 / 2)) : m + m % 2 = M := by
  obtain ⟨⟨hlow, hhigh⟩, hodd⟩ := h
  have hle : m ≤ M := by
    have : (m : ℚ) ≤ M := by linarith
    exact_mod_cast this
  have hge : M ≤ m + 1 := by
    have : (M : ℚ) ≤ m + 1 := by linarith
    exact_mod_cast this
  have heven : M % 2 = 0 := by
    by_contra hne
    obtain ⟨hl, hh⟩ := hodd (by omega)
    have hlt : (M : ℚ) < m + 1 := by linarith
    have hgt : (m : ℚ) < M := by linarith
    have : M < m + 1 := by exact_mod_cast hlt
    have : m < M := by exact_mod_cast hgt
    omega
  omega

/-- **An extended mantissa is rounded to the nearest mantissa.** -/
theorem Represents.roundedMantissa_eq {em : ExtendedMantissa} {x : ℚ} {M : ℕ}
    (h : Represents em x) (hM : Nearest M x) : em.roundedMantissa = M := by
  obtain ⟨hlow, hhigh⟩ := hM.1
  match em, h with
  | ⟨m, false, false⟩, (h : x = m) =>
    exact eq_of_cast_lt_succ (m := m) (by linarith) (by linarith)
  | ⟨m, false, true⟩, ⟨hl, hh⟩ =>
    exact eq_of_cast_lt_succ (m := m) (by linarith) (by linarith)
  | ⟨m, true, false⟩, (h : x = m + 1 / 2) => exact (h ▸ hM).eq_of_half
  | ⟨m, true, true⟩, ⟨hl, hh⟩ =>
    exact eq_of_cast_lt_succ (m := m + 1) (by push_cast; linarith) (by push_cast; linarith)

theorem shiftRightOne_even (k : ℕ) (r s : Bool) :
    ExtendedMantissa.shiftRightOne ⟨2 * k, r, s⟩ = ⟨k, false, r || s⟩ := by
  simp [ExtendedMantissa.shiftRightOne]

theorem shiftRightOne_odd (k : ℕ) (r s : Bool) :
    ExtendedMantissa.shiftRightOne ⟨2 * k + 1, r, s⟩ = ⟨k, true, r || s⟩ := by
  simp [ExtendedMantissa.shiftRightOne]
  omega

/-- A shift by one halves what is represented. -/
theorem Represents.shiftRightOne {em : ExtendedMantissa} {x : ℚ} (h : Represents em x) :
    Represents em.shiftRightOne (x / 2) := by
  obtain ⟨m, r, s⟩ := em
  obtain ⟨k, rfl | rfl⟩ := m.even_or_odd'
  · rw [shiftRightOne_even]
    match r, s, h with
    | false, false, (h : x = (2 * k : ℕ)) =>
      push_cast at h
      show x / 2 = k
      linarith
    | false, true, ⟨hl, hh⟩ =>
      push_cast at hl hh
      constructor <;> linarith
    | true, false, (h : x = (2 * k : ℕ) + 1 / 2) =>
      push_cast at h
      constructor <;> linarith
    | true, true, ⟨hl, hh⟩ =>
      push_cast at hl hh
      constructor <;> linarith
  · rw [shiftRightOne_odd]
    match r, s, h with
    | false, false, (h : x = (2 * k + 1 : ℕ)) =>
      push_cast at h
      show x / 2 = k + 1 / 2
      linarith
    | false, true, ⟨hl, hh⟩ =>
      push_cast at hl hh
      constructor <;> linarith
    | true, false, (h : x = (2 * k + 1 : ℕ) + 1 / 2) =>
      push_cast at h
      constructor <;> linarith
    | true, true, ⟨hl, hh⟩ =>
      push_cast at hl hh
      constructor <;> linarith

/-- A shift divides what is represented by a power of two. -/
theorem Represents.shiftRight {em : ExtendedMantissa} {x : ℚ} (h : Represents em x) (n : ℕ) :
    Represents (em >>> n) (x / 2 ^ n) := by
  show Represents (n.repeat ExtendedMantissa.shiftRightOne em) _
  induction n with
  | zero => simpa [Nat.repeat] using h
  | succ n ih =>
    rw [Nat.repeat, pow_succ, ← div_div]
    exact ih.shiftRightOne

theorem represents_exact (m : ℕ) : Represents (.ofMantissaAndAccuracy m .exact) m := rfl

/-- The accuracy of a proper fraction tells how it compares with one half. -/
theorem represents_accuracy (q : ℕ) {r d : ℕ} (hr : r < d) :
    Represents (.ofMantissaAndAccuracy q (accuracyOfFraction r d)) (q + r / d : ℚ) := by
  have hlt : (r : ℚ) < d := by exact_mod_cast hr
  have hd : (0 : ℚ) < d := by linarith [r.cast_nonneg (α := ℚ)]
  rw [accuracyOfFraction]
  split
  · next h =>
    rw [h, Nat.cast_zero, zero_div, add_zero]
    exact represents_exact q
  · next h =>
    have hr : (0 : ℚ) < r := by exact_mod_cast Nat.pos_of_ne_zero h
    have hpos : (0 : ℚ) < r / d := by positivity
    have hone : (r / d : ℚ) < 1 := (div_lt_one hd).mpr hlt
    match hcmp : compare (2 * r) d with
    | .lt =>
      have : (2 * r : ℚ) < d := by exact_mod_cast Nat.compare_eq_lt.mp hcmp
      have hhalf : (r / d : ℚ) < 1 / 2 := by
        rw [div_lt_div_iff₀ hd two_pos]
        linarith
      constructor <;> linarith
    | .eq =>
      have : (2 * r : ℚ) = d := by exact_mod_cast Nat.compare_eq_eq.mp hcmp
      have hhalf : (r / d : ℚ) = 1 / 2 := by
        rw [div_eq_div_iff hd.ne' two_ne_zero]
        linarith
      exact congrArg ((q : ℚ) + ·) hhalf
    | .gt =>
      have : (d : ℚ) < 2 * r := by exact_mod_cast Nat.compare_eq_gt.mp hcmp
      have hhalf : 1 / 2 < (r / d : ℚ) := by
        rw [div_lt_div_iff₀ two_pos hd]
        linarith
      constructor <;> linarith

/-- The whole part of a fraction, with the accuracy of its remainder, stands for the fraction. -/
theorem represents_fraction (n : ℕ) {d : ℕ} (hd : 0 < d) :
    Represents (.ofMantissaAndAccuracy (n / d) (accuracyOfFraction (n % d) d)) (n / d : ℚ) := by
  have hd' : (d : ℚ) ≠ 0 := by exact_mod_cast hd.ne'
  have hn : (n : ℚ) / d = (n / d : ℕ) + (n % d : ℕ) / d := by
    rw [eq_comm, add_div' _ _ _ hd', div_left_inj' hd']
    exact_mod_cast Nat.div_add_mod' n d
  rw [hn]
  exact represents_accuracy (n / d) (Nat.mod_lt n hd)

@[simp] theorem mantissa_ofMantissaAndAccuracy (m : ℕ) (acc : Accuracy) :
    (ExtendedMantissa.ofMantissaAndAccuracy m acc).mantissa = m := by
  cases acc with
  | exact => rfl
  | inexact o => cases o <;> rfl

/-! ### Rounding at an exponent -/

theorem targetExponent_binary64 (t : ℤ) :
    Format.binary64.targetExponent t = max (t - 53) (-1074) := rfl

/-- The mantissa and the exponent of a positive double: the mantissa has 53 bits, or fewer at the
least exponent. -/
structure IsDouble (M : ℕ) (E : ℤ) : Prop where
  mantissa_pos : 0 < M
  mantissa_lt : M < 2 ^ 53
  exponent_ge : -1074 ≤ E
  exponent_le : E ≤ 971
  full : 2 ^ 52 ≤ M ∨ E = -1074

/-- The mantissa `M` and the exponent `E` are what a number of `z` units of `2 ^ E` is rounded to
before a mantissa that has grown too long is cut. -/
structure Framed (z : ℚ) (M : ℕ) (E : ℤ) : Prop where
  exponent_ge : -1074 ≤ E
  lt : z < 2 ^ 53
  ge : 2 ^ 52 ≤ z ∨ E = -1074
  nearest : Nearest M z

/-- What has at most 53 bits at the exponent `E`, and no fewer unless `E` is the least exponent, is
shifted to that exponent. -/
theorem shiftToTargetExponent_eq {m d : ℕ} {E : ℤ} (acc : Accuracy) (hE : -1074 ≤ E)
    (hlt : m < 2 ^ (53 + d)) (hge : 2 ^ (52 + d) ≤ m ∨ E = -1074) :
    shiftToTargetExponent .binary64 m (E - d) acc =
      (ExtendedMantissa.ofMantissaAndAccuracy m acc >>> d, E) := by
  have hlog : m.log2 < 53 + d := by
    by_cases hm : m = 0
    · subst hm
      simp
    · exact (Nat.log2_lt hm).mpr hlt
  have htarget :
      Format.binary64.targetExponent (totalExponent m (E - d)) = E := by
    rw [targetExponent_binary64, totalExponent]
    rcases hge with hge | rfl
    · have hm : m ≠ 0 := by
        rintro rfl
        exact absurd hge (by simp)
      have := (Nat.le_log2 hm).mpr hge
      omega
    · omega
  simp [shiftToTargetExponent, shiftToExponent, htarget]

/-- A mantissa that fits is left as it is. -/
theorem IsDouble.shiftToTargetExponent_eq {M : ℕ} {E : ℤ} (h : IsDouble M E) :
    shiftToTargetExponent .binary64 M E .exact = (⟨M, false, false⟩, E) := by
  have hshift :=
    ListCalc.shiftToTargetExponent_eq (d := 0) .exact h.exponent_ge h.mantissa_lt h.full
  rwa [Nat.cast_zero, sub_zero] at hshift

/-- A mantissa that has just grown too long loses its last bit. -/
theorem shiftToTargetExponent_of_overflow {E : ℤ} (hE : -1074 ≤ E - 1) :
    shiftToTargetExponent .binary64 (2 ^ 53) (E - 1) .exact = (⟨2 ^ 52, false, false⟩, E) := by
  have h := shiftToTargetExponent_eq (m := 2 ^ 53) (d := 1) (E := E) .exact (by omega)
    (by decide) (.inl (by decide))
  rw [Nat.cast_one] at h
  rw [h]
  rfl

/-- Rounding gives the nearest mantissa at the exponent of the result, or zero if that is the
nearest one. -/
theorem roundWithAccuracy_eq_dite {x : ℚ} {m d M M' : ℕ} {E E' : ℤ} {acc : Accuracy}
    (s : Sign) (hx : Represents (.ofMantissaAndAccuracy m acc) x) (hframe : Framed (x / 2 ^ d) M E)
    (hcut : shiftToTargetExponent .binary64 M E .exact = (⟨M', false, false⟩, E')) :
    roundWithAccuracy .binary64 s m (E - d) acc =
      if h : M' = 0 then .zero s else .finite s M' E' (Nat.pos_of_ne_zero h) := by
  have hpow : (0 : ℚ) < 2 ^ d := by positivity
  obtain ⟨hmle, hmlt⟩ := hx.mantissa_le
  rw [mantissa_ofMantissaAndAccuracy] at hmle hmlt
  have hlt : m < 2 ^ (53 + d) := by
    have : (m : ℚ) < 2 ^ (53 + d) := by
      rw [pow_add]
      exact hmle.trans_lt ((div_lt_iff₀ hpow).mp hframe.lt)
    exact_mod_cast this
  have hge : 2 ^ (52 + d) ≤ m ∨ E = -1074 := by
    refine hframe.ge.imp_left fun h => ?_
    have : ((2 ^ (52 + d) : ℕ) : ℚ) < m + 1 := by
      push_cast
      rw [pow_add]
      exact ((le_div_iff₀ hpow).mp h).trans_lt hmlt
    exact Nat.lt_succ_iff.mp (by exact_mod_cast this)
  have hshift := shiftToTargetExponent_eq acc hframe.exponent_ge hlt hge
  have hround := (hx.shiftRight d).roundedMantissa_eq hframe.nearest
  rw [roundWithAccuracy, hshift]
  dsimp only
  rw [hround, hcut]

theorem roundWithAccuracy_of_framed {x : ℚ} {m d M M' : ℕ} {E E' : ℤ} {acc : Accuracy}
    (s : Sign) (hx : Represents (.ofMantissaAndAccuracy m acc) x) (hframe : Framed (x / 2 ^ d) M E)
    (hcut : shiftToTargetExponent .binary64 M E .exact = (⟨M', false, false⟩, E')) (hM' : 0 < M') :
    roundWithAccuracy .binary64 s m (E - d) acc = .finite s M' E' hM' :=
  (roundWithAccuracy_eq_dite s hx hframe hcut).trans (dif_neg hM'.ne')

/-! ### The interval of a double -/

namespace Binary

/-- A positive double with its interval: the gap below is narrow where the double below has a
smaller exponent. -/
structure Proper (b : Binary) : Prop extends IsDouble b.mantissa b.exponent where
  narrow_iff : b.narrowBelow = true ↔ b.mantissa = 2 ^ 52 ∧ b.exponent ≠ -1074

/-- Half the gap below the number, in units of its exponent. -/
def halfGap (b : Binary) : ℚ := if b.narrowBelow then 1 / 4 else 1 / 2

/-- The number `x` lies in the interval of the numbers that round to `b`. -/
def RoundsTo (b : Binary) (x : ℚ) : Prop :=
  (b.mantissa - b.halfGap ≤ x / 2 ^ b.exponent ∧ x / 2 ^ b.exponent ≤ b.mantissa + 1 / 2) ∧
  (b.mantissa % 2 = 1 →
    b.mantissa - b.halfGap < x / 2 ^ b.exponent ∧ x / 2 ^ b.exponent < b.mantissa + 1 / 2)

end Binary

namespace Binary.RoundsTo

variable {b : Binary} {x : ℚ}

/-- A number just below a power of two is framed one exponent below. -/
theorem framed_below (hb : b.Proper) (hx : b.RoundsTo x) (hnarrow : b.narrowBelow = true)
    (hlt : x / 2 ^ b.exponent < b.mantissa) :
    Framed (x / 2 ^ (b.exponent - 1)) (2 ^ 53) (b.exponent - 1) := by
  obtain ⟨⟨hlow, -⟩, -⟩ := hx
  obtain ⟨hm, he⟩ := hb.narrow_iff.mp hnarrow
  have hge := hb.exponent_ge
  rw [halfGap, if_pos hnarrow] at hlow
  rw [hm, Nat.cast_pow, Nat.cast_two] at hlow hlt
  have hdouble : x / 2 ^ (b.exponent - 1) = 2 * (x / 2 ^ b.exponent) := by
    rw [zpow_sub_one₀ two_ne_zero, div_mul_eq_div_div, div_inv_eq_mul, mul_comm]
  rw [hdouble]
  generalize x / 2 ^ b.exponent = z at hlow hlt
  refine ⟨by omega, by linarith, .inl (by linarith), ⟨?_, ?_⟩, by simp⟩
  · push_cast
    linarith
  · push_cast
    linarith

/-- A number that is not just below a power of two is framed by the mantissa and the exponent of
the double. -/
theorem framed_at (hb : b.Proper) (hx : b.RoundsTo x)
    (hle : b.narrowBelow = true → b.mantissa ≤ x / 2 ^ b.exponent) :
    Framed (x / 2 ^ b.exponent) b.mantissa b.exponent := by
  obtain ⟨⟨hlow, hhigh⟩, hodd⟩ := hx
  have hmlt : (b.mantissa : ℚ) + 1 ≤ 2 ^ 53 := by exact_mod_cast hb.mantissa_lt
  generalize x / 2 ^ b.exponent = z at *
  rw [halfGap] at hlow hodd
  refine ⟨hb.exponent_ge, by linarith, or_iff_not_imp_right.mpr fun he => ?_, ?_⟩
  · have hfull := hb.full.resolve_right he
    by_cases hm : b.mantissa = 2 ^ 52
    · have h := hle (hb.narrow_iff.mpr ⟨hm, he⟩)
      rwa [hm, Nat.cast_pow, Nat.cast_two] at h
    · have hsucc : (2 : ℚ) ^ 52 + 1 ≤ b.mantissa := by
        have : 2 ^ 52 + 1 ≤ b.mantissa := by omega
        exact_mod_cast this
      split at hlow <;> linarith
  · by_cases hnarrow : b.narrowBelow = true
    · have hz := hle hnarrow
      have hm := (hb.narrow_iff.mp hnarrow).1
      exact ⟨⟨by linarith, hhigh⟩, fun h => by omega⟩
    · rw [if_neg hnarrow] at hlow hodd
      exact ⟨⟨hlow, hhigh⟩, hodd⟩

/-- A number in the interval of a double is framed so that cutting gives the double. -/
theorem framed (hb : b.Proper) (hx : b.RoundsTo x) :
    ∃ M E, Framed (x / 2 ^ E) M E ∧
      shiftToTargetExponent .binary64 M E .exact = (⟨b.mantissa, false, false⟩, b.exponent) := by
  by_cases hbelow : b.narrowBelow = true ∧ x / 2 ^ b.exponent < b.mantissa
  · obtain ⟨hm, he⟩ := hb.narrow_iff.mp hbelow.1
    have hge := hb.exponent_ge
    exact ⟨_, _, hx.framed_below hb hbelow.1 hbelow.2,
      hm ▸ shiftToTargetExponent_of_overflow (by omega)⟩
  · rw [not_and, not_lt] at hbelow
    exact ⟨_, _, hx.framed_at hb hbelow, hb.shiftToTargetExponent_eq⟩

end Binary.RoundsTo

/-! ### Quotients -/

/-- The quotient of two scaled mantissas is larger than what their lengths give at least. -/
theorem two_zpow_lt_quotient {m₁ m₂ : ℕ} (e₁ e₂ : ℤ) (h₁ : 0 < m₁) (h₂ : 0 < m₂) :
    (2 : ℚ) ^ (totalExponent m₁ e₁ - totalExponent m₂ e₂ - 1) <
      (m₁ * 2 ^ e₁) / (m₂ * 2 ^ e₂) := by
  have hlow : (2 : ℚ) ^ m₁.log2 ≤ m₁ := by exact_mod_cast Nat.log2_self_le h₁.ne'
  have hhigh : (m₂ : ℚ) < 2 ^ (m₂.log2 + 1) := by exact_mod_cast Nat.lt_log2_self
  have hexp : totalExponent m₁ e₁ - totalExponent m₂ e₂ - 1 =
      (m₁.log2 + e₁) - ((m₂.log2 + 1 : ℕ) + e₂) := by
    rw [totalExponent, totalExponent]
    push_cast
    ring
  have hm₁ : (0 : ℚ) < m₁ := by exact_mod_cast h₁
  have hm₂ : (0 : ℚ) < m₂ := by exact_mod_cast h₂
  rw [hexp, zpow_sub₀ two_ne_zero, zpow_add₀ two_ne_zero, zpow_add₀ two_ne_zero, zpow_natCast,
    zpow_natCast]
  exact div_lt_div₀' (mul_le_mul_of_nonneg_right hlow (by positivity))
    (mul_lt_mul_of_pos_right hhigh (by positivity)) (by positivity) (by positivity)

/-- A shift of the dividend and one of the quotient bring a quotient to another exponent. -/
theorem shifted_quotient_eq (m₁ m₂ : ℕ) {e₁ e₂ E : ℤ} {k d : ℕ}
    (h : (k : ℤ) - d = e₁ - e₂ - E) :
    ((m₁ <<< k : ℕ) : ℚ) / m₂ / 2 ^ d = m₁ * 2 ^ e₁ / (m₂ * 2 ^ e₂) / 2 ^ E := by
  calc ((m₁ <<< k : ℕ) : ℚ) / m₂ / 2 ^ d
      = m₁ / m₂ * (2 ^ (k : ℤ) / 2 ^ (d : ℤ)) := by
        rw [Nat.shiftLeft_eq, zpow_natCast, zpow_natCast]
        push_cast
        ring
    _ = m₁ / m₂ * (2 ^ e₁ / 2 ^ e₂ / 2 ^ E) := by
        rw [← zpow_sub₀ two_ne_zero, h, zpow_sub₀ two_ne_zero, zpow_sub₀ two_ne_zero]
    _ = m₁ * 2 ^ e₁ / (m₂ * 2 ^ e₂) / 2 ^ E := by ring

/-- The exponent at which a quotient is computed is not larger than that of the result. -/
theorem targetExponent_quotient_le {m₁ m₂ M : ℕ} {e₁ e₂ E : ℤ} (h₁ : 0 < m₁) (h₂ : 0 < m₂)
    (hframe : Framed (m₁ * 2 ^ e₁ / (m₂ * 2 ^ e₂) / 2 ^ E) M E) :
    Format.binary64.targetExponent (totalExponent m₁ e₁ - totalExponent m₂ e₂) ≤ E := by
  have hlow := two_zpow_lt_quotient e₁ e₂ h₁ h₂
  have hhigh := (div_lt_iff₀ (zpow_pos two_pos E)).mp hframe.lt
  rw [← zpow_natCast, ← zpow_add₀ two_ne_zero] at hhigh
  have := (zpow_lt_zpow_iff_right₀ one_lt_two).mp (hlow.trans hhigh)
  have := hframe.exponent_ge
  rw [targetExponent_binary64]
  omega

/-- A quotient is rounded to the nearest mantissa at the exponent that frames it. -/
theorem div_eq_dite {m₁ m₂ M M' : ℕ} {e₁ e₂ E E' : ℤ} (h₁ : 0 < m₁) (h₂ : 0 < m₂)
    (hframe : Framed (m₁ * 2 ^ e₁ / (m₂ * 2 ^ e₂) / 2 ^ E) M E)
    (hcut : shiftToTargetExponent .binary64 M E .exact = (⟨M', false, false⟩, E')) :
    UnpackedFloat.div .binary64 (.finite .positive m₁ e₁ h₁) (.finite .positive m₂ e₂ h₂) =
      if h : M' = 0 then .zero .positive else .finite .positive M' E' (Nat.pos_of_ne_zero h) := by
  have htarget := targetExponent_quotient_le h₁ h₂ hframe
  obtain ⟨t, ht⟩ : ∃ t, t = min (e₁ - e₂)
      (Format.binary64.targetExponent (totalExponent m₁ e₁ - totalExponent m₂ e₂)) := ⟨_, rfl⟩
  obtain ⟨d, hd⟩ : ∃ d : ℕ, t = E - d := ⟨(E - t).toNat, by omega⟩
  obtain ⟨k, hk⟩ : ∃ k : ℕ, e₁ - e₂ - t = k := ⟨(e₁ - e₂ - t).toNat, by omega⟩
  have hcore : divCore .binary64 m₁ e₁ m₂ e₂ =
      (m₁ <<< k / m₂, E - d, accuracyOfFraction (m₁ <<< k % m₂) m₂) := by
    simp only [divCore, ← ht, hk, Int.toNat_natCast, ← hd]
  have hexp : (k : ℤ) - d = e₁ - e₂ - E := by omega
  show (match divCore .binary64 m₁ e₁ m₂ e₂ with
    | (m, e, acc) => roundWithAccuracy .binary64 .positive m e acc) = _
  rw [hcore]
  exact roundWithAccuracy_eq_dite .positive (represents_fraction (m₁ <<< k) h₂)
    (shifted_quotient_eq m₁ m₂ hexp ▸ hframe) hcut

/-- **A quotient in the interval of a double is rounded to that double.** -/
theorem div_eq_finite {b : Binary} (hb : b.Proper) {m₁ m₂ : ℕ} {e₁ e₂ : ℤ} (h₁ : 0 < m₁)
    (h₂ : 0 < m₂) (hx : b.RoundsTo ((m₁ * 2 ^ e₁) / (m₂ * 2 ^ e₂))) :
    UnpackedFloat.div .binary64 (.finite .positive m₁ e₁ h₁) (.finite .positive m₂ e₂ h₂) =
      .finite .positive b.mantissa b.exponent hb.mantissa_pos := by
  obtain ⟨M, E, hframe, hcut⟩ := hx.framed hb
  exact (div_eq_dite h₁ h₂ hframe hcut).trans (dif_neg hb.mantissa_pos.ne')

end ListCalc
