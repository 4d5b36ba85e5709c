/-
The shortest decimal of a double.

The grids that are searched end with one so fine that the next point above the
number lies in its interval, so the search finds a point on one of them.

* `holds_iff` — the comparison of whole numbers tells whether a point lies in the
  interval;
* `roundsTo_shortest` — the shortest decimal of a double lies in its interval.
-/
import ListCalc.Proofs.Number.Rounding
import Mathlib.Tactic.LinearCombination

namespace ListCalc

namespace Decimal

/-- The number that a decimal stands for. -/
def value (d : Decimal) : ℚ := d.digits * 10 ^ d.exponent

end Decimal

namespace Binary

variable {b : Binary} {g : ℤ} {c : ℕ}

/-! ### Points of a grid -/

/-- Scaling turns quarters of the unit of a number into points of the grid. -/
theorem scaling_eq (b : Binary) (g : ℤ) :
    ((b.scaling g).1 : ℚ) * 10 ^ g * 4 = (b.scaling g).2 * 2 ^ b.exponent := by
  have hten : (10 : ℚ) ^ (-g).toNat * 10 ^ g = 10 ^ g.toNat := by
    rw [← zpow_natCast, ← zpow_natCast, ← zpow_add₀ (by norm_num)]
    congr 1
    omega
  have htwo : (2 : ℚ) ^ (b.exponent - 2).toNat * 4 =
      2 ^ (-(b.exponent - 2)).toNat * 2 ^ b.exponent := by
    rw [show (4 : ℚ) = 2 ^ (2 : ℤ) by norm_num, ← zpow_natCast, ← zpow_natCast,
      ← zpow_add₀ two_ne_zero, ← zpow_add₀ two_ne_zero]
    congr 1
    omega
  simp only [scaling, Nat.pow_eq]
  push_cast
  calc (2 : ℚ) ^ (b.exponent - 2).toNat * 10 ^ (-g).toNat * 10 ^ g * 4
      = 2 ^ (b.exponent - 2).toNat * 4 * (10 ^ (-g).toNat * 10 ^ g) := by ring
    _ = 2 ^ (-(b.exponent - 2)).toNat * 2 ^ b.exponent * 10 ^ g.toNat := by rw [hten, htwo]
    _ = _ := by ring

theorem scaling_pos (b : Binary) (g : ℤ) : 0 < (b.scaling g).1 ∧ 0 < (b.scaling g).2 := by
  simp only [scaling, Nat.pow_eq]
  constructor <;> positivity

/-- A point of the grid, in quarters of the unit of the number. -/
theorem point_eq (b : Binary) (g : ℤ) (c : ℕ) :
    (c * (b.scaling g).2 : ℚ) = (b.scaling g).1 * (4 * (c * 10 ^ g / 2 ^ b.exponent)) := by
  have hpos : (0 : ℚ) < 2 ^ b.exponent := by positivity
  rw [mul_div_assoc', mul_div_assoc', eq_div_iff hpos.ne']
  linear_combination -(c : ℚ) * scaling_eq b g

/-- **A point of the grid lies in the interval of a number if the comparison says so.** -/
theorem holds_iff (hb : 0 < b.mantissa) : b.holds g c = true ↔ b.RoundsTo (c * 10 ^ g) := by
  have hnum : (0 : ℚ) < (b.scaling g).1 := by exact_mod_cast (b.scaling_pos g).1
  have hlow : (((4 * b.mantissa - if b.narrowBelow then 1 else 2) * (b.scaling g).1 : ℕ) : ℚ) =
      (b.scaling g).1 * (4 * (b.mantissa - b.halfGap)) := by
    have hle : (if b.narrowBelow then 1 else 2) ≤ 4 * b.mantissa := by split <;> omega
    rw [Nat.cast_mul, Nat.cast_sub hle, halfGap]
    split <;> push_cast <;> ring
  have hhigh : (((4 * b.mantissa + 2) * (b.scaling g).1 : ℕ) : ℚ) =
      (b.scaling g).1 * (4 * (b.mantissa + 1 / 2)) := by
    push_cast
    ring
  have hpoint := point_eq b g c
  rw [← Nat.cast_mul] at hpoint
  rw [holds, RoundsTo]
  dsimp only
  -- All three are multiples of the same quarter, so that they compare as the rationals do.
  split
  · next heven =>
    simp only [Bool.and_eq_true, decide_eq_true_eq, ← Nat.cast_le (α := ℚ), hlow, hhigh, hpoint,
      mul_le_mul_iff_right₀ hnum, mul_le_mul_iff_right₀ (four_pos : (0 : ℚ) < 4)]
    refine (and_iff_left fun h => ?_).symm
    omega
  · next hodd =>
    simp only [Bool.and_eq_true, decide_eq_true_eq, ← Nat.cast_lt (α := ℚ), hlow, hhigh, hpoint,
      mul_lt_mul_iff_right₀ hnum, mul_lt_mul_iff_right₀ (four_pos : (0 : ℚ) < 4)]
    exact ⟨fun h => ⟨⟨h.1.le, h.2.le⟩, fun _ => h⟩, fun h => h.2 (by omega)⟩

/-- A point that is found is positive and lies in the interval. -/
theorem pointOn?_eq_some (h : b.pointOn? g = some c) : 0 < c ∧ b.holds g c = true := by
  rw [pointOn?] at h
  dsimp only at h
  generalize 4 * b.mantissa * (b.scaling g).1 / (b.scaling g).2 = below at h
  have hbelow : (decide (0 < below) && b.holds g below) = true →
      0 < below ∧ b.holds g below = true := by simp
  split at h
  · next h₁ h₂ =>
    split at h
    · exact Option.some.inj h ▸ hbelow h₁
    · split at h
      · exact Option.some.inj h ▸ ⟨below.succ_pos, h₂⟩
      · split at h
        · exact Option.some.inj h ▸ hbelow h₁
        · exact Option.some.inj h ▸ ⟨below.succ_pos, h₂⟩
  · next h₁ _ => exact Option.some.inj h ▸ hbelow h₁
  · next _ h₂ => exact Option.some.inj h ▸ ⟨below.succ_pos, h₂⟩
  · cases h

/-- A grid has a point if the point above the number lies in its interval. -/
theorem exists_pointOn?
    (h : b.holds g (4 * b.mantissa * (b.scaling g).1 / (b.scaling g).2 + 1) = true) :
    ∃ c, b.pointOn? g = some c := by
  rw [pointOn?]
  dsimp only
  rw [h]
  split
  · split_ifs <;> exact ⟨_, rfl⟩
  · exact ⟨_, rfl⟩
  · exact ⟨_, rfl⟩
  · next h => cases h

/-- If the step of the grid is less than half the unit of the number, it is less than two in
quarters of the unit. -/
theorem step_lt (hg : (10 : ℚ) ^ g < 2 ^ (b.exponent - 1)) :
    ((b.scaling g).2 : ℚ) < (b.scaling g).1 * 2 := by
  have hnum : (0 : ℚ) < (b.scaling g).1 := by exact_mod_cast (b.scaling_pos g).1
  have hpow : (0 : ℚ) < 2 ^ b.exponent := by positivity
  rw [zpow_sub_one₀ two_ne_zero] at hg
  have h := mul_lt_mul_of_pos_left hg (mul_pos hnum four_pos)
  have hscale := scaling_eq b g
  rw [← mul_lt_mul_iff_left₀ hpow]
  linarith

/-- The first multiple of `d` above `n` is at most `d` away. -/
theorem next_multiple (n : ℕ) {d : ℕ} (hd : 0 < d) :
    (n : ℚ) < (n / d + 1 : ℕ) * d ∧ ((n / d + 1 : ℕ) : ℚ) * d ≤ n + d := by
  constructor
  · rw [mul_comm]
    exact_mod_cast Nat.lt_mul_div_succ n hd
  · have : (n / d + 1) * d ≤ n + d := by
      rw [Nat.add_mul, Nat.one_mul]
      exact Nat.add_le_add_right (Nat.div_mul_le_self n d) d
    exact_mod_cast this

/-- On such a grid the point above the number is less than half a unit away. -/
theorem next_point_bounds (hg : (10 : ℚ) ^ g < 2 ^ (b.exponent - 1)) :
    let c := 4 * b.mantissa * (b.scaling g).1 / (b.scaling g).2 + 1
    b.mantissa < c * 10 ^ g / (2 : ℚ) ^ b.exponent ∧
      c * 10 ^ g / (2 : ℚ) ^ b.exponent < b.mantissa + 1 / 2 := by
  intro c
  have hnum : (0 : ℚ) < (b.scaling g).1 := by exact_mod_cast (b.scaling_pos g).1
  have hstep := step_lt hg
  obtain ⟨hlow, hhigh⟩ :=
    next_multiple (4 * b.mantissa * (b.scaling g).1) (b.scaling_pos g).2
  rw [point_eq] at hlow hhigh
  push_cast at hlow hhigh
  constructor
  · have := lt_of_mul_lt_mul_left (a := ((b.scaling g).1 : ℚ)) (b := 4 * (b.mantissa : ℚ))
      (c := 4 * (c * 10 ^ g / 2 ^ b.exponent)) (by push_cast [c]; linarith) hnum.le
    linarith
  · have := lt_of_mul_lt_mul_left (a := ((b.scaling g).1 : ℚ))
      (b := 4 * (c * 10 ^ g / 2 ^ b.exponent)) (c := 4 * (b.mantissa : ℚ) + 2)
      (by push_cast [c]; linarith) hnum.le
    linarith

/-- A grid whose step is less than half the unit of the number has a point. -/
theorem exists_pointOn?_of_fine (hb : 0 < b.mantissa) (hg : (10 : ℚ) ^ g < 2 ^ (b.exponent - 1)) :
    ∃ c, b.pointOn? g = some c := by
  apply exists_pointOn?
  rw [holds_iff hb, RoundsTo]
  obtain ⟨habove, hhalf⟩ := next_point_bounds hg
  have hgap : (b.mantissa : ℚ) - b.halfGap < b.mantissa := by
    rw [halfGap]
    split <;> linarith
  exact ⟨⟨(hgap.trans habove).le, hhalf.le⟩, fun _ => ⟨hgap.trans habove, hhalf⟩⟩

/-! ### The search -/

/-- The search ends with a point of a grid if there is one on the last. -/
theorem search_eq (b : Binary) (steps : ℕ) {g : ℤ} (hlast : ∃ c, b.pointOn? (g - steps) = some c) :
    b.pointOn? (b.search steps g).exponent = some (b.search steps g).digits ∧
      g - steps ≤ (b.search steps g).exponent := by
  induction steps generalizing g with
  | zero =>
    obtain ⟨c, hc⟩ := hlast
    rw [Nat.cast_zero, sub_zero] at hc
    simp only [search, hc, Option.getD_some, true_and, Nat.cast_zero, sub_zero, le_refl]
  | succ steps ih =>
    rw [search]
    split
    · next c hc => exact ⟨hc, by dsimp only; omega⟩
    · next h =>
      obtain ⟨hpoint, hge⟩ := ih (g := g - 1) (by convert hlast using 4; push_cast; ring)
      exact ⟨hpoint, by push_cast; omega⟩

/-- Powers of ten and of two compare as their exponents do, with some room. -/
theorem ten_zpow_lt_two_zpow {a k : ℤ} (h₁ : 10 * a < 3 * k) (h₂ : 93 * a < 28 * k) :
    (10 : ℚ) ^ a < 2 ^ k := by
  rcases le_total 0 a with ha | ha
  · refine lt_of_pow_lt_pow_left₀ 3 (by positivity) ?_
    calc ((10 : ℚ) ^ a) ^ 3 = (10 ^ 3) ^ a := by rw [← zpow_natCast, zpow_comm, zpow_natCast]
      _ ≤ (2 ^ 10) ^ a := zpow_le_zpow_left₀ ha (by norm_num) (by norm_num)
      _ = 2 ^ (10 * a) := by rw [zpow_mul, ← zpow_natCast]; rfl
      _ < 2 ^ (3 * k) := zpow_lt_zpow_right₀ one_lt_two h₁
      _ = (2 ^ k) ^ 3 := by rw [mul_comm, zpow_mul, ← zpow_natCast]; rfl
  · refine lt_of_pow_lt_pow_left₀ 28 (by positivity) ?_
    have hbase : ((2 : ℚ) ^ 93) ^ (-a) ≤ (10 ^ 28) ^ (-a) :=
      zpow_le_zpow_left₀ (by omega) (by norm_num) (by norm_num)
    calc ((10 : ℚ) ^ a) ^ 28 = ((10 ^ 28) ^ (-a))⁻¹ := by
          rw [zpow_neg, inv_inv, ← zpow_natCast, zpow_comm, zpow_natCast]
      _ ≤ ((2 ^ 93) ^ (-a))⁻¹ := inv_anti₀ (by positivity) hbase
      _ = 2 ^ (93 * a) := by rw [zpow_neg, inv_inv, zpow_mul, ← zpow_natCast]; rfl
      _ < 2 ^ (28 * k) := zpow_lt_zpow_right₀ one_lt_two h₂
      _ = (2 ^ k) ^ 28 := by rw [mul_comm, zpow_mul, ← zpow_natCast]; rfl

/-- The last grid that is searched for the shortest decimal of a double is fine enough. -/
theorem last_grid_fine (hb : b.Proper) :
    (10 : ℚ) ^ (b.coarsest - 24) < 2 ^ (b.exponent - 1) ∧ -400 ≤ b.coarsest - 24 := by
  have hlog : b.mantissa.log2 < 53 := (Nat.log2_lt hb.mantissa_pos.ne').mpr hb.mantissa_lt
  have hge := hb.exponent_ge
  have hle := hb.exponent_le
  rw [coarsest, Int.fdiv_eq_ediv_of_nonneg _ (by decide)]
  exact ⟨ten_zpow_lt_two_zpow (by omega) (by omega), by omega⟩

/-- **The shortest decimal of a double rounds to it.** -/
theorem roundsTo_shortest (hb : b.Proper) :
    0 < b.shortest.digits ∧ -400 ≤ b.shortest.exponent ∧ b.RoundsTo b.shortest.value := by
  obtain ⟨hfine, hbound⟩ := last_grid_fine hb
  obtain ⟨hpoint, hge⟩ := search_eq b 24 (exists_pointOn?_of_fine hb.mantissa_pos hfine)
  obtain ⟨hpos, hholds⟩ := pointOn?_eq_some hpoint
  exact ⟨hpos, hbound.trans hge, (holds_iff hb.mantissa_pos).mp hholds⟩

end Binary

end ListCalc
