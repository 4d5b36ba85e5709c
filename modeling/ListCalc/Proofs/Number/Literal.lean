/-
Reading back the text of a number.

The text of a finite number without its sign consists of digits, a point and
digits.  Such a text is read as a decimal: its digits as one whole number, divided
by a power of ten.

* `Pointed.read?_eq` — what digits with a point are read as;
* `pointed_positional` — a decimal in plain notation keeps its value;
* `read?_renderMagnitude` — the text of a finite number without its sign is read
  as the absolute value of the number.
-/
import ListCalc.Number.Literal
import ListCalc.Proofs.Number.Quotient
import ListCalc.Proofs.Number.Shortest
import ListCalc.Proofs.Spelling.Scan

namespace ListCalc

open Token

namespace Number

/-! ### Plain text -/

/-- Nothing but digits and points. -/
def Plain (cs : List Char) : Prop := ∀ c ∈ cs, isDigit c = true ∨ c = '.'

theorem lower_of_plain {c : Char} (h : isDigit c = true ∨ c = '.') : lower c = c := by
  rcases h with h | rfl
  · have hupper : ¬ 'A' ≤ c := by
      rw [Char.le_def, UInt32.le_iff_toNat_le, not_le]
      show c.toNat < 65
      rw [isDigit_iff] at h
      omega
    simp [lower, hupper]
  · rfl

theorem Plain.not_mem {cs : List Char} (h : Plain cs) {c : Char} (hc : isDigit c = false)
    (hp : c ≠ '.') : c ∉ cs := by
  intro hmem
  rcases h c hmem with hd | rfl
  · rw [hc] at hd
    cases hd
  · exact hp rfl

theorem Plain.map_lower {cs : List Char} (h : Plain cs) : cs.map lower = cs := by
  rw [List.map_congr_left fun c hc => lower_of_plain (h c hc), List.map_id']

/-- Where there are no underscores, none is misplaced. -/
theorem underscoresFit_of_not_mem (digit : Char → Bool) {cs : List Char} (h : '_' ∉ cs)
    {before : Before} (hb : before ≠ .underscore) : underscoresFit digit before cs = true := by
  induction cs generalizing before with
  | nil =>
    cases before with
    | underscore => exact absurd rfl hb
    | _ => rfl
  | cons c cs ih =>
    rw [List.mem_cons, not_or] at h
    have hdigit : underscoresFit digit .digit cs = true := ih h.2 (by simp)
    have hsign : underscoresFit digit .sign cs = true := ih h.2 (by simp)
    cases before with
    | underscore => exact absurd rfl hb
    | _ => simp [underscoresFit, hdigit, hsign, Ne.symm h.1]

theorem Plain.underscoresFitNumber {cs : List Char} (h : Plain cs) :
    underscoresFitNumber cs = true := by
  have hno := h.not_mem (c := '_') (by decide) (by decide)
  unfold Number.underscoresFitNumber
  split
  · next x cs =>
    have hx := h x (by simp)
    have hne : ∀ {d : Char}, isDigit d = false → d ≠ '.' → lower x ≠ d := by
      intro d hd hp
      rw [lower_of_plain hx]
      rintro rfl
      exact h.not_mem hd hp (by simp)
    rw [if_neg (hne (by decide) (by decide)), if_neg]
    · exact underscoresFit_of_not_mem _ hno (by simp)
    · simp [hne (d := 'b') (by decide) (by decide), hne (d := 'o') (by decide) (by decide)]
  · exact underscoresFit_of_not_mem _ hno (by simp)

theorem Plain.unsigned?_eq {cs : List Char} (h : Plain cs) : unsigned? cs = decimal? cs := by
  unfold unsigned?
  rw [h.underscoresFitNumber]
  simp only [Bool.not_true, Bool.false_eq_true, if_false]
  split
  · next x c rest =>
    rw [if_neg]
    rw [lower_of_plain (h x (by simp))]
    rintro rfl
    exact h.not_mem (c := 'x') (by decide) (by decide) (by simp)
  · rfl

/-- Plain text is read as an unsigned decimal number. -/
theorem read?_of_plain {text : String} (h : Plain text.toList) :
    read? text = decimal? text.toList := by
  have hword : ∀ word : String, word.toList.any (fun c => !isDigit c && c != '.') = true →
      String.ofList (text.toList.map lower) ≠ word := by
    intro word hw heq
    rw [h.map_lower, String.ofList_toList] at heq
    obtain ⟨c, hc, hother⟩ := List.any_eq_true.mp hw
    rw [← heq] at hc
    rcases h c hc with hd | rfl
    · simp [hd] at hother
    · simp at hother
  have hmagnitude : magnitude? text.toList = decimal? text.toList := by
    simp only [magnitude?, hword "inf" (by decide), hword "infinity" (by decide), decide_false,
      Bool.or_self, Bool.false_eq_true, if_false]
    exact h.unsigned?_eq
  rw [read?]
  split
  · next cs heq => exact absurd (by simp [heq]) (h.not_mem (c := '+') (by decide) (by decide))
  · next cs heq => exact absurd (by simp [heq]) (h.not_mem (c := '-') (by decide) (by decide))
  · rw [if_neg (hword "nan" (by decide)), hmagnitude]

/-! ### Digits with a point -/

theorem decimalDigit?_of_isDigit {c : Char} (h : isDigit c = true) :
    decimalDigit? c = some (c.toNat - '0'.toNat) := if_pos h

/-- Digits extend the whole number that was read so far. -/
theorem mantissa_digits {ds : List Char} (hds : ∀ d ∈ ds, isDigit d = true) (m : Mantissa)
    (rest : List Char) : mantissa 10 decimalDigit? m (ds ++ rest) =
      mantissa 10 decimalDigit? ⟨Nat.ofDigitChars 10 ds m.value,
        if m.pointSeen then m.places + ds.length else m.places, m.pointSeen,
        m.digitSeen || !ds.isEmpty⟩ rest := by
  induction ds generalizing m with
  | nil => simp
  | cons d ds ih =>
    rw [List.forall_mem_cons] at hds
    have hunderscore : d ≠ '_' := ne_of_isDigit hds.1 (by decide)
    have hpoint : d ≠ '.' := ne_of_isDigit hds.1 (by decide)
    rw [List.cons_append, mantissa, if_neg hunderscore, if_neg (by simp [hpoint]),
      decimalDigit?_of_isDigit hds.1]
    dsimp only
    rw [ih hds.2, Nat.ofDigitChars_cons, mul_comm 10]
    cases m.pointSeen <;> simp [add_assoc, add_comm 1]

theorem mantissa_point {m : Mantissa} (h : m.pointSeen = false) (rest : List Char) :
    mantissa 10 decimalDigit? m ('.' :: rest) =
      mantissa 10 decimalDigit? { m with pointSeen := true } rest := by
  rw [mantissa, if_neg (by decide), if_pos (by simp [h])]

theorem mantissa_pointed {whole fraction : List Char} (hne : whole ≠ [])
    (hwhole : ∀ d ∈ whole, isDigit d = true) (hfraction : ∀ d ∈ fraction, isDigit d = true) :
    mantissa 10 decimalDigit? ⟨0, 0, false, false⟩ (whole ++ '.' :: fraction) =
      (⟨Nat.ofDigitChars 10 (whole ++ fraction) 0, fraction.length, true, true⟩, []) := by
  have hend := mantissa_digits hfraction ⟨Nat.ofDigitChars 10 whole 0, 0, true, true⟩ []
  rw [List.append_nil] at hend
  rw [mantissa_digits hwhole, mantissa_point rfl, List.isEmpty_eq_false_iff.mpr hne]
  simpa [Nat.ofDigitChars_append, mantissa] using hend

/-- The text consists of digits, with a point in front of the last `p` of them, and the digits make
up `n`. -/
def Pointed (text : String) (n p : ℕ) : Prop :=
  ∃ whole fraction, text.toList = whole ++ '.' :: fraction ∧ whole ≠ [] ∧
    (∀ d ∈ whole, isDigit d = true) ∧ (∀ d ∈ fraction, isDigit d = true) ∧
    fraction.length = p ∧ Nat.ofDigitChars 10 (whole ++ fraction) 0 = n

/-- **Digits with a point are read as a whole number divided by a power of ten.** -/
theorem Pointed.read?_eq {text : String} {n p : ℕ} (h : Pointed text n p) :
    read? text = ofDecimal? ⟨n, -p⟩ := by
  obtain ⟨whole, fraction, htext, hne, hwhole, hfraction, rfl, rfl⟩ := h
  have hplain : Plain text.toList := by
    rw [htext]
    intro c hc
    rw [List.mem_append, List.mem_cons] at hc
    exact hc.elim (fun hc => .inl (hwhole c hc)) fun hc =>
      hc.elim .inr fun hc => .inl (hfraction c hc)
  rw [read?_of_plain hplain, htext, decimal?, mantissa_pointed hne hwhole hfraction]
  rfl

theorem Pointed.isNumeral {text : String} {n p : ℕ} (h : Pointed text n p) (hp : 0 < p) :
    IsNumeral text := by
  obtain ⟨whole, fraction, htext, hne, hwhole, hfraction, rfl, -⟩ := h
  exact ⟨whole, fraction, htext, hne, List.ne_nil_of_length_pos hp, hwhole, hfraction⟩

/-! ### Decimals in plain notation -/

theorem isDigit_of_mem_digitChars {n : ℕ} : ∀ d ∈ Decimal.digitChars n, isDigit d = true := by
  intro d hd
  have h := Nat.isDigit_of_mem_toDigits (by decide) (by decide) hd
  rwa [Char.isDigit] at h

theorem isDigit_of_mem_replicate (n : ℕ) : ∀ d ∈ List.replicate n '0', isDigit d = true := by
  intro d hd
  rw [List.eq_of_mem_replicate hd]
  rfl

/-- Zeros make up a whole number, and one more stands behind the point. -/
theorem pointed_of_nonneg (c n : ℕ) : Pointed (Decimal.positional ⟨c, n⟩) (c * 10 ^ (n + 1)) 1 := by
  refine ⟨Decimal.digitChars c ++ List.replicate n '0', ['0'], ?_, ?_, ?_, isDigit_of_mem_zero,
    rfl, ?_⟩
  · simp [Decimal.positional]
  · simp [Decimal.digitChars, Nat.toDigits_ne_nil]
  · exact List.forall_mem_append.mpr ⟨isDigit_of_mem_digitChars, isDigit_of_mem_replicate n⟩
  · rw [Nat.ofDigitChars_append, Nat.ofDigitChars_append, Decimal.digitChars,
      Nat.ofDigitChars_ten_toDigits, Nat.ofDigitChars_replicate_zero]
    show 10 * (10 ^ n * c) + 0 = _
    ring

/-- A point can stand in front of the last digits if there are more of them. -/
theorem pointed_of_length {ds : List Char} (hds : ∀ d ∈ ds, isDigit d = true) {p : ℕ}
    (hp : p < ds.length) :
    Pointed (String.ofList (ds.take (ds.length - p) ++ '.' :: ds.drop (ds.length - p)))
      (Nat.ofDigitChars 10 ds 0) p := by
  refine ⟨_, _, String.toList_ofList, ?_, ?_, ?_, ?_, ?_⟩
  · exact List.ne_nil_of_length_pos (by rw [List.length_take]; omega)
  · exact fun d hd => hds d (List.mem_of_mem_take hd)
  · exact fun d hd => hds d (List.mem_of_mem_drop hd)
  · rw [List.length_drop]
    omega
  · rw [List.take_append_drop]

/-- Zeros in front make the digits long enough for the point. -/
theorem pointed_of_neg (c n : ℕ) :
    Pointed (Decimal.positional ⟨c, Int.negSucc n⟩) c (n + 1) := by
  have hdigits : ∀ d ∈ List.replicate (n + 1 + 1 - (Decimal.digitChars c).length) '0' ++
      Decimal.digitChars c, isDigit d = true :=
    List.forall_mem_append.mpr ⟨isDigit_of_mem_replicate _, isDigit_of_mem_digitChars⟩
  have h := pointed_of_length hdigits (p := n + 1)
    (by rw [List.length_append, List.length_replicate]; omega)
  rwa [Nat.ofDigitChars_append, Nat.ofDigitChars_replicate_zero, Nat.mul_zero,
    show Nat.ofDigitChars 10 (Decimal.digitChars c) 0 = c from Nat.ofDigitChars_ten_toDigits] at h

/-- **A decimal in plain notation consists of digits and a point, and keeps its value.** -/
theorem pointed_positional (d : Decimal) :
    ∃ n p, Pointed d.positional n p ∧ (n : ℚ) / 10 ^ p = d.value ∧ 0 < p ∧
      p ≤ 1 + (-d.exponent).toNat := by
  obtain ⟨c, n | n⟩ := d
  · refine ⟨c * 10 ^ (n + 1), 1, pointed_of_nonneg c n, ?_, one_pos, by omega⟩
    rw [Decimal.value, Int.ofNat_eq_natCast, zpow_natCast, pow_one, pow_succ]
    push_cast
    ring
  · refine ⟨c, n + 1, pointed_of_neg c n, ?_, n.succ_pos, by dsimp only; omega⟩
    rw [Decimal.value, Int.negSucc_eq, zpow_neg, ← div_eq_mul_inv]
    norm_cast

/-! ### Finite numbers -/

/-- A number in the interval of a double is neither too large nor too small to be read. -/
theorem bounds_of_roundsTo {b : Binary} (hb : b.Proper) {y : ℚ} (hy : b.RoundsTo y) :
    (10 : ℚ) ^ (-330 : ℤ) < y ∧ y < 10 ^ (310 : ℤ) := by
  obtain ⟨⟨hlow, hhigh⟩, -⟩ := hy
  have hpow : (0 : ℚ) < 2 ^ b.exponent := by positivity
  have hone : (1 : ℚ) ≤ b.mantissa := by exact_mod_cast hb.mantissa_pos
  have hlt : (b.mantissa : ℚ) + 1 ≤ 2 ^ (53 : ℤ) := by exact_mod_cast hb.mantissa_lt
  have hgap : b.halfGap ≤ 1 / 2 := by
    rw [Binary.halfGap]
    split <;> norm_num
  constructor
  · calc (10 : ℚ) ^ (-330 : ℤ) < 2 ^ (-1075 : ℤ) :=
          Binary.ten_zpow_lt_two_zpow (by decide) (by decide)
      _ ≤ 2 ^ (b.exponent - 1) :=
          zpow_le_zpow_right₀ one_le_two (by linarith [hb.exponent_ge])
      _ = 1 / 2 * 2 ^ b.exponent := by rw [zpow_sub_one₀ two_ne_zero]; ring
      _ ≤ y := by rw [← le_div_iff₀ hpow]; linarith
  · calc y ≤ 2 ^ (53 : ℤ) * 2 ^ b.exponent := by rw [← div_le_iff₀ hpow]; linarith
      _ = 2 ^ (53 + b.exponent) := (zpow_add₀ two_ne_zero _ _).symm
      _ ≤ 2 ^ (1024 : ℤ) := zpow_le_zpow_right₀ one_le_two (by linarith [hb.exponent_le])
      _ < 10 ^ (310 : ℤ) := by
          have h : (10 : ℚ) ^ (-310 : ℤ) < 2 ^ (-1024 : ℤ) :=
            Binary.ten_zpow_lt_two_zpow (by decide) (by decide)
          rwa [zpow_neg, zpow_neg, inv_lt_inv₀ (by positivity) (by positivity)] at h

/-- The length of a number bounds it. -/
theorem length_digitChars_bounds {n : ℕ} (hn : 0 < n) :
    (10 : ℚ) ^ ((Decimal.digitChars n).length - 1 : ℤ) ≤ n ∧
      (n : ℚ) < 10 ^ ((Decimal.digitChars n).length : ℤ) := by
  obtain ⟨k, hk⟩ : ∃ k, (Decimal.digitChars n).length = k + 1 :=
    ⟨_, (Nat.succ_pred_eq_of_pos Nat.length_toDigits_pos).symm⟩
  have hiff := fun {j} => Nat.length_toDigits_le_iff (n := n) (k := j) (b := 10) (by decide)
  rw [hk]
  push_cast
  rw [add_sub_cancel_right]
  constructor
  · have : 10 ^ k ≤ n := by
      by_contra hlt
      rcases Nat.eq_zero_or_pos k with rfl | hpos
      · omega
      · have := (hiff hpos).mpr (not_le.mp hlt)
        rw [Decimal.digitChars] at hk
        omega
    exact_mod_cast this
  · exact_mod_cast (hiff k.succ_pos).mp hk.le

/-- A decimal in the interval of a double is read as that double. -/
theorem ofDecimal?_of_roundsTo {b : Binary} (hb : b.Proper) {n p : ℕ} (hn : 0 < n) (hp : 0 < p)
    (hle : p ≤ 2048) (h : b.RoundsTo (n / 10 ^ p)) :
    ofDecimal? ⟨n, -p⟩ =
      some (.ofModel (.pack (.finite .positive b.mantissa b.exponent hb.mantissa_pos))) := by
  obtain ⟨hlow, hhigh⟩ := bounds_of_roundsTo hb h
  obtain ⟨hlen, hlen'⟩ := length_digitChars_bounds hn
  have hpow : (0 : ℚ) < 10 ^ p := by positivity
  have hone : (1 : ℚ) < 10 := by norm_num
  rw [lt_div_iff₀ hpow, ← zpow_natCast, ← zpow_add₀ (by norm_num)] at hlow
  rw [div_lt_iff₀ hpow, ← zpow_natCast, ← zpow_add₀ (by norm_num)] at hhigh
  have hlarge := (zpow_lt_zpow_iff_right₀ hone).mp (hlen.trans_lt hhigh)
  have hsmall := (zpow_lt_zpow_iff_right₀ hone).mp (hlow.trans hlen')
  have hfinite : (Float.ofModel (.pack (.finite .positive b.mantissa b.exponent
      hb.mantissa_pos))).isFinite = true := by
    show (Float.Model.pack _).unpack.isFinite = true
    rw [unpack_pack_finite hb.toIsDouble]
    rfl
  have hsign : decide (-(p : ℤ) < 0) = true := by simpa using hp
  rw [ofDecimal?]
  simp only [hn.ne', if_false, hsign, Int.natAbs_neg, Int.natAbs_natCast,
    ofScientific_eq hb hn hp hle h, hfinite, if_true]
  rw [if_neg (by omega), if_neg (by omega)]

/-- The text of a finite number without its sign consists of digits, a point and digits. -/
theorem isNumeral_renderMagnitude (x : Float) : IsNumeral (renderMagnitude x) := by
  rw [renderMagnitude]
  split
  · exact ⟨['0'], ['0'], rfl, by simp, by simp, isDigit_of_mem_zero, isDigit_of_mem_zero⟩
  · obtain ⟨n, p, h, -, hp, -⟩ := pointed_positional (magnitude x).shortest
    exact h.isNumeral hp

/-- **The text of a finite number without its sign is read as the absolute value of the number.** -/
theorem read?_renderMagnitude {x : Float} (hx : x.isFinite = true) :
    read? (renderMagnitude x) = some x.abs := by
  show _ = some (Float.ofModel (.pack x.toModel.unpack.abs))
  rw [renderMagnitude]
  split
  · next hm =>
    have hzero : Pointed "0.0" 0 1 :=
      ⟨['0'], ['0'], rfl, by simp, isDigit_of_mem_zero, isDigit_of_mem_zero, rfl, rfl⟩
    rw [hzero.read?_eq, unpack_of_mantissa_eq_zero hm, Float.Model.UnpackedFloat.abs]
    decide +kernel
  · next hm =>
    have hb := proper_magnitude hx hm
    obtain ⟨hpos, hge, hrounds⟩ := Binary.roundsTo_shortest hb
    obtain ⟨n, p, hpointed, hvalue, hp, hle⟩ := pointed_positional (magnitude x).shortest
    have hn : 0 < n := by
      rw [Decimal.value] at hvalue
      have : (0 : ℚ) < n / 10 ^ p := hvalue ▸ by positivity
      by_contra h
      obtain rfl : n = 0 := by omega
      simp at this
    rw [hpointed.read?_eq, ofDecimal?_of_roundsTo hb hn hp (by omega) (hvalue ▸ hrounds),
      unpack_of_mantissa_ne_zero hx hm]
    rfl

end Number

end ListCalc
