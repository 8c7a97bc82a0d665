import ActionGrammar.Proofs.Decimal.Nearest

/-! # Reading decimals

A decimal is read as the nearest double, whichever way is taken to compute it. Two decimals
of one value are thus read alike, however their digits and their exponents differ.
-/

namespace ActionGrammar.Decimal

open Float.Model

def value (d : Decimal) : ℚ := d.significand * 10 ^ d.exponent

/-! ### The place of the first digit -/

section

variable {n k : ℕ} {d : Decimal} {q : ℚ}

theorem digitCount_le_iff (hk : 0 < k) : digitCount n ≤ k ↔ n < 10 ^ k :=
  Nat.length_toDigits_le_iff (by decide) hk

theorem digitCount_pos (n : ℕ) : 0 < digitCount n := Nat.length_toDigits_pos

theorem value_pos (hd : 0 < d.significand) : 0 < d.value := by
  unfold value
  positivity

theorem significand_pos_of_value (hd : 0 < d.value) : 0 < d.significand := by
  refine Nat.pos_of_ne_zero fun hzero => hd.ne' ?_
  rw [value, hzero, Nat.cast_zero, zero_mul]

theorem value_lt_iff (hd : 0 < d.significand) {z : ℤ} : d.value < 10 ^ z ↔ point d ≤ z := by
  have hten : (10 : ℚ) ≠ 0 := by norm_num
  have hdiv : d.value < 10 ^ z ↔ (d.significand : ℚ) < 10 ^ (z - d.exponent) := by
    rw [value, zpow_sub₀ hten, lt_div_iff₀ (by positivity)]
  rw [hdiv, point]
  have hcount := digitCount_pos d.significand
  rcases le_or_gt (z - d.exponent) 0 with hz | hz
  · have hone : (10 : ℚ) ^ (z - d.exponent) ≤ 1 := zpow_le_one_of_nonpos₀ (by norm_num) hz
    have hge : (1 : ℚ) ≤ d.significand := by exact_mod_cast hd
    exact iff_of_false (not_lt.mpr (hone.trans hge)) (by omega)
  · obtain ⟨k, hk⟩ := Int.eq_ofNat_of_zero_le hz.le
    have hpow : (d.significand : ℚ) < 10 ^ k ↔ d.significand < 10 ^ k := by norm_cast
    rw [hk, zpow_natCast, hpow, ← digitCount_le_iff (by omega)]
    omega

/-! ### Powers of ten -/

/-- The powers of ten in the table have long significands and are exact. -/
theorem parts_powersOfTen (e : Fin 23) :
    IsFinite Float.exactlyRepresentablePowersOfTen[e] ∧
    isNegative Float.exactlyRepresentablePowersOfTen[e] = false ∧
    2 ^ 52 ≤ (binaryParts Float.exactlyRepresentablePowersOfTen[e]).1 ∧
    -52 ≤ (binaryParts Float.exactlyRepresentablePowersOfTen[e]).2 ∧
    (binaryParts Float.exactlyRepresentablePowersOfTen[e]).1 *
        2 ^ ((binaryParts Float.exactlyRepresentablePowersOfTen[e]).2 + 52).toNat =
      10 ^ e.val * 2 ^ 52 := by
  revert e
  decide

theorem magnitude_powersOfTen (e : Fin 23) :
    magnitude Float.exactlyRepresentablePowersOfTen[e] = 10 ^ e.val := by
  obtain ⟨-, -, -, hlow, heq⟩ := parts_powersOfTen e
  generalize Float.exactlyRepresentablePowersOfTen[e] = x at *
  obtain ⟨k, hk⟩ := Int.eq_ofNat_of_zero_le (by omega : 0 ≤ (binaryParts x).2 + 52)
  have he : (binaryParts x).2 = k - 52 := by omega
  rw [hk, Int.toNat_natCast] at heq
  rw [magnitude, he, zpow_sub₀ two_ne_zero, mul_div_assoc', div_eq_iff (by positivity)]
  exact_mod_cast heq

theorem isPositive_powersOfTen (e : Fin 23) :
    IsPositive Float.exactlyRepresentablePowersOfTen[e] := by
  obtain ⟨hfinite, hs, hlong, -⟩ := parts_powersOfTen e
  exact ⟨hfinite, hs, lt_of_lt_of_le (by decide) hlong⟩

/-! ### Rounding decimals -/

theorem magnitude_toFloat {m : ℕ} (hm : 0 < m) (hlt : m < 2 ^ 53) :
    IsPositive m.toUInt64.toFloat ∧ magnitude m.toUInt64.toFloat = m := by
  have hnat : m.toUInt64.toNat = m := by
    rw [Nat.toUInt64, UInt64.toNat_ofNat']
    exact Nat.mod_eq_of_lt (by omega)
  have hnearest : nearest (m : ℚ) = m := by simpa using @nearest_eq_self m 0 hm hlt (by decide)
  have h : IsNearest m m.toUInt64.toFloat := by
    have h := @isNearest_toFloat m.toUInt64 (by omega)
    rwa [hnat] at h
  have hsmall : nearest (m : ℚ) < 2 ^ 1024 := by
    rw [hnearest]
    calc (m : ℚ) < 2 ^ 53 := by exact_mod_cast hlt
      _ ≤ 2 ^ 1024 := by gcongr <;> norm_num
  obtain ⟨hfinite, hs, hmagnitude⟩ := h.finite hsmall
  rw [hnearest] at hmagnitude
  refine ⟨⟨hfinite, hs, Nat.pos_of_ne_zero fun hzero => ?_⟩, hmagnitude⟩
  rw [magnitude_eq_zero_iff.mpr hzero] at hmagnitude
  exact hm.ne (by exact_mod_cast hmagnitude)

/-- Where both the significand and the power of ten are exact, one operation remains. -/
theorem isNearest_ofScientific_short {m : ℕ} {e : ℤ} (hm : 0 < m) (hlt : m < 2 ^ 53)
    (he : e.natAbs ≤ 22) :
    IsNearest (m * 10 ^ e) (Float.ofScientific m (e < 0) e.natAbs) := by
  obtain ⟨hpos, hmagnitude⟩ := magnitude_toFloat hm hlt
  have hpow := isPositive_powersOfTen ⟨e.natAbs, by omega⟩
  have hpowMagnitude := magnitude_powersOfTen ⟨e.natAbs, by omega⟩
  have hlong := (parts_powersOfTen ⟨e.natAbs, by omega⟩).2.2.1
  rw [Float.ofScientific, dif_pos ⟨hlt, he⟩]
  by_cases hneg : e < 0
  · have hvalue : (m * 10 ^ e : ℚ) = m / 10 ^ e.natAbs := by
      rw [div_eq_mul_inv, ← zpow_natCast, ← zpow_neg]
      congr 2
      omega
    simp only [hneg, decide_true, if_true]
    rw [hvalue, ← hmagnitude, ← hpowMagnitude]
    exact isNearest_div hpos hpow
  · have hvalue : (m * 10 ^ e : ℚ) = m * 10 ^ e.natAbs := by
      rw [← zpow_natCast]
      congr 2
      omega
    simp only [hneg, decide_false]
    rw [hvalue, ← hmagnitude, ← hpowMagnitude]
    exact isNearest_mul hpos hpow hlong

theorem isNearest_ofScientific_long {m : ℕ} {e : ℤ} (hm : 0 < m) (hhigh : e ≤ 2 ^ 11)
    (hlow : -(2 ^ 11 + m.log2 : ℤ) ≤ e) :
    IsNearest (m * 10 ^ e) (.ofModel (Float.Model.ofScientific m e)) := by
  have hmodel : Float.Model.ofScientific m e =
    Float.Model.pack (UnpackedFloat.ofScientific .binary64 m e) := rfl
  rw [hmodel, UnpackedFloat.ofScientific, dif_neg hm.ne', if_neg (not_lt.mpr hhigh),
    if_neg (not_lt.mpr hlow)]
  split
  · rename_i he
    obtain ⟨k, rfl⟩ := Int.eq_ofNat_of_zero_le he
    have hvalue : (m * 10 ^ (k : ℤ) : ℚ) =
        (m <<< 53 : ℕ) * 2 ^ (-(53 : ℕ) : ℤ) * ((10 ^ k : ℕ) * 2 ^ (0 : ℤ)) := by
      rw [Nat.shiftLeft_eq, zpow_neg, zpow_natCast, zpow_natCast]
      push_cast
      field_simp
      norm_num
    rw [hvalue]
    apply isNearest_mul_finite
    rw [Nat.shiftLeft_eq]
    calc 2 ^ 52 ≤ 1 * 2 ^ 53 * 1 := by decide
      _ ≤ m * 2 ^ 53 * 10 ^ k := by
        gcongr
        · exact hm
        · exact Nat.one_le_pow _ _ (by decide)
  · rename_i he
    obtain ⟨k, hk⟩ := Int.eq_ofNat_of_zero_le (by omega : 0 ≤ -e)
    have hvalue : (m * 10 ^ e : ℚ) = m * 2 ^ (0 : ℤ) / ((10 ^ (-e).toNat : ℕ) * 2 ^ (0 : ℤ)) := by
      have he : e = -k := by omega
      rw [hk, Int.toNat_natCast, he, zpow_neg, zpow_natCast]
      push_cast
      field_simp
    rw [hvalue]
    apply isNearest_div_finite

theorem isNearest_ofScientific {m : ℕ} {e : ℤ} (hm : 0 < m) (hhigh : e ≤ 310)
    (hlow : -330 - digitCount m ≤ e) :
    IsNearest (m * 10 ^ e) (Float.ofScientific m (e < 0) e.natAbs) := by
  by_cases hshort : m < 2 ^ 53 ∧ e.natAbs ≤ 22
  · exact isNearest_ofScientific_short hm hshort.1 hshort.2
  · have hcount : digitCount m ≤ m.log2 + 1 := by
      rw [digitCount_le_iff (Nat.succ_pos _)]
      exact lt_of_lt_of_le Nat.lt_log2_self (Nat.pow_le_pow_left (by decide) _)
    have hexponent : (if decide (e < 0) = true then Int.negOfNat e.natAbs
        else Int.ofNat e.natAbs) = e := by
      rw [Int.negOfNat_eq]
      simp only [decide_eq_true_eq, Int.ofNat_eq_natCast]
      split <;> omega
    rw [Float.ofScientific, dif_neg hshort]
    simp only [hexponent]
    exact isNearest_ofScientific_long hm (by omega) (by omega)

theorem two_pow_le : (2 : ℚ) ^ 1024 ≤ 10 ^ 310 :=
  calc (2 : ℚ) ^ 1024 = (2 ^ 93) ^ 11 * 2 := by rw [← pow_mul, ← pow_succ]
    _ ≤ (10 ^ 28) ^ 11 * 10 ^ 2 := by gcongr <;> norm_num
    _ = 10 ^ 310 := by rw [← pow_mul, ← pow_add]

/-- A decimal is read as the nearest double. -/
theorem isNearest_value (hd : 0 < d.significand) : IsNearest d.value d.toFloat := by
  have hpos := value_pos hd
  rw [toFloat, if_neg hd.ne']
  dsimp only
  split
  · rename_i htop
    have hlarge : (10 : ℚ) ^ (310 : ℤ) ≤ d.value := by
      rw [← not_lt, value_lt_iff hd]
      exact not_le.mpr htop
    have hpow : (2 : ℚ) ^ (1024 : ℤ) ≤ 10 ^ (310 : ℤ) := two_pow_le
    have hnearest := nearest_mono (by positivity) (hpow.trans hlarge)
    have hself : nearest ((1 : ℕ) * 2 ^ (1024 : ℤ)) = (1 : ℕ) * 2 ^ (1024 : ℤ) :=
      nearest_eq_self (by decide) (by decide) (by decide)
    rw [Nat.cast_one, one_mul] at hself
    rw [hself] at hnearest
    exact ⟨fun hlt => absurd hlt (not_lt.mpr hnearest), fun _ => rfl⟩
  · split
    · rename_i htop
      have hsmall : d.value < 10 ^ (-330 : ℤ) := (value_lt_iff hd).mpr (le_of_lt htop)
      have hpow : (10 : ℚ) ^ (-330 : ℤ) ≤ 2 ^ (-1075 : ℤ) := by
        rw [zpow_neg, zpow_neg, inv_le_inv₀ (by positivity) (by positivity)]
        calc (2 : ℚ) ^ 1075 = 2 ^ 1024 * 2 ^ 51 := by rw [← pow_add]
          _ ≤ 10 ^ 310 * 10 ^ 20 := by
            gcongr
            · exact two_pow_le
            · norm_num
          _ = 10 ^ 330 := by rw [← pow_add]
      exact isNearest_zero (nearest_eq_zero hpos (lt_of_lt_of_le hsmall hpow))
    · have hcount := digitCount_pos d.significand
      exact isNearest_ofScientific hd (by omega) (by omega)

theorem toFloat_congr {d' : Decimal} (hd : 0 < d.significand) (h : d.value = d'.value) :
    d.toFloat = d'.toFloat := by
  have hd' : 0 < d'.significand := significand_pos_of_value (h ▸ value_pos hd)
  exact (h ▸ isNearest_value hd : IsNearest d'.value d.toFloat).unique (isNearest_value hd')

end

end ActionGrammar.Decimal
