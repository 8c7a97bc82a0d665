import ActionGrammar.Proofs.Decimal.Rounding

/-! # The nearest double

The double that is nearest to a positive number is known by the number alone, and every
positive double is the nearest one to its own value. Products and quotients are rounded
but once.
-/

namespace ActionGrammar.Decimal

open Float.Model

open Float.Model.UnpackedFloat (Accuracy Sign roundWithAccuracy)

/-! ### The value of a double -/

section

variable {m n : ℕ} {e f : ℤ} {x y : Float}

theorem IsCanonical.scale_eq (h : IsCanonical m e) (hm : 0 < m) : scale (m * 2 ^ e) = e := by
  have hlow := h.le
  have hlt := (Nat.log2_lt hm.ne').mpr h.lt
  have hnormal := h.normal
  rw [← Nat.le_log2 hm.ne'] at hnormal
  rw [scale, log_mul_zpow hm]
  omega

theorem mul_zpow_eq_zero : (m * 2 ^ e : ℚ) = 0 ↔ m = 0 := by
  rw [mul_eq_zero, Nat.cast_eq_zero]
  exact or_iff_left (zpow_ne_zero e two_ne_zero)

theorem IsCanonical.unique (h : IsCanonical m e) (h' : IsCanonical n f)
    (heq : (m * 2 ^ e : ℚ) = n * 2 ^ f) : m = n ∧ e = f := by
  have hzero : m = 0 ↔ n = 0 := by
    rw [← @mul_zpow_eq_zero m e, heq, mul_zpow_eq_zero]
  rcases Nat.eq_zero_or_pos m with hm | hm
  · have := h.normal
    have := h'.normal
    omega
  · have hn : 0 < n := by omega
    have hexp : e = f := by rw [← h.scale_eq hm, heq, h'.scale_eq hn]
    subst hexp
    have hmn : (m : ℚ) = n := mul_right_cancel₀ (by positivity) heq
    exact ⟨by exact_mod_cast hmn, rfl⟩

theorem eq_of_magnitude (hs : isNegative x = isNegative y) (h : magnitude x = magnitude y) :
    x = y := by
  obtain ⟨hm, he⟩ := (isCanonical_binaryParts x).unique (isCanonical_binaryParts y) h
  exact ext_of_parts hs (Prod.ext hm he)

theorem magnitude_eq_zero_iff : magnitude x = 0 ↔ (binaryParts x).1 = 0 := mul_zpow_eq_zero

theorem IsPositive.magnitude_pos (hx : IsPositive x) : 0 < magnitude x := by
  have := hx.pos
  unfold magnitude
  positivity

theorem IsCanonical.lt_iff (h : IsCanonical m e) : (m * 2 ^ e : ℚ) < 2 ^ 1024 ↔ e ≤ 971 := by
  constructor
  · intro hlt
    by_contra hlarge
    have hn : 2 ^ 52 ≤ m := h.normal.resolve_right (by omega)
    refine absurd hlt (not_lt.mpr ?_)
    calc (2 ^ 1024 : ℚ) = (2 ^ 52 : ℕ) * 2 ^ (972 : ℤ) := by
          rw [Nat.cast_pow]
          exact pow_add 2 52 972
      _ ≤ m * 2 ^ e := by
        gcongr
        · exact one_le_two
        · omega
  · intro hle
    calc (m * 2 ^ e : ℚ) < (2 ^ 53 : ℕ) * 2 ^ e := by
          gcongr
          exact h.lt
      _ ≤ (2 ^ 53 : ℕ) * 2 ^ (971 : ℤ) := by
          gcongr
          exact one_le_two
      _ = 2 ^ 1024 := by
        rw [Nat.cast_pow]
        exact (pow_add 2 53 971).symm

theorem magnitude_lt (hx : IsFinite x) : magnitude x < 2 ^ 1024 :=
  (isCanonical_binaryParts x).lt_iff.mpr (exponent_le hx)

theorem le_magnitude (hx : ¬ IsFinite x) : 2 ^ 1024 ≤ magnitude x := by
  refine not_lt.mp fun hlt => ?_
  have he : (binaryParts x).2 ≤ 971 := (isCanonical_binaryParts x).lt_iff.mp hlt
  have hx : x.toBits.toNat / 2 ^ 52 % 2 ^ 11 = 2047 := not_not.mp hx
  unfold binaryParts at he
  dsimp only at he
  rw [if_neg (by omega)] at he
  simp only [Int.ofNat_eq_natCast] at he
  omega

end

/-! ### Rounding to a double -/

/-- The double is the nearest one to a positive number, and infinite if the number is too large. -/
structure IsNearest (q : ℚ) (x : Float) : Prop where
  finite : nearest q < 2 ^ 1024 → IsFinite x ∧ isNegative x = false ∧ magnitude x = nearest q
  infinite : 2 ^ 1024 ≤ nearest q → x = infinity

section

variable {q : ℚ} {m n : ℕ} {e f : ℤ} {x y : Float}

theorem IsNearest.unique (h : IsNearest q x) (h' : IsNearest q y) : x = y := by
  rcases lt_or_ge (nearest q) (2 ^ 1024) with hlt | hge
  · obtain ⟨-, hs, hm⟩ := h.finite hlt
    obtain ⟨-, hs', hm'⟩ := h'.finite hlt
    exact eq_of_magnitude (hs.trans hs'.symm) (hm.trans hm'.symm)
  · exact (h.infinite hge).trans (h'.infinite hge).symm

theorem IsPositive.nearest_magnitude (hx : IsPositive x) :
    nearest (magnitude x) = magnitude x :=
  nearest_eq_self hx.pos (isCanonical_binaryParts x).lt (isCanonical_binaryParts x).le

theorem IsPositive.isNearest (hx : IsPositive x) : IsNearest (magnitude x) x where
  finite _ := ⟨hx.finite, hx.sign, hx.nearest_magnitude.symm⟩
  infinite hge := by
    rw [hx.nearest_magnitude] at hge
    exact absurd (magnitude_lt hx.finite) (not_lt.mpr hge)

theorem parts_zero : IsFinite (Float.ofBits 0) ∧ isNegative (Float.ofBits 0) = false ∧
    binaryParts (Float.ofBits 0) = (0, -1074) :=
  parts_of_toBits ⟨by decide, le_refl _, .inr rfl⟩ (by decide) rfl

theorem isNearest_zero (h : nearest q = 0) : IsNearest q (.ofBits 0) where
  finite _ := by
    obtain ⟨hfinite, hs, hparts⟩ := parts_zero
    exact ⟨hfinite, hs, by rw [h, magnitude_eq_zero_iff, hparts]⟩
  infinite hge := by
    rw [h] at hge
    exact absurd hge (not_le.mpr (by positivity))

theorem isNearest_pack (h : IsCanonical m e) (hvalue : m * 2 ^ e = nearest q) :
    IsNearest q (.ofModel (Float.Model.pack (if hm : m = 0 then .zero .positive
      else .finite .positive m e (Nat.pos_of_ne_zero hm)))) := by
  split
  · rename_i hm
    exact isNearest_zero (by rw [← hvalue, hm, Nat.cast_zero, zero_mul])
  · rename_i hm
    constructor
    · intro hlt
      rw [← hvalue, h.lt_iff] at hlt
      obtain ⟨hfinite, hs, hparts⟩ :=
        @ofModel_pack_finite _ false m e h (Nat.pos_of_ne_zero hm) hlt rfl
      refine ⟨hfinite, hs, ?_⟩
      rw [← hvalue]
      exact congrArg (fun p => (p.1 * 2 ^ p.2 : ℚ)) hparts
    · intro hge
      rw [← hvalue, ← not_lt, h.lt_iff, not_le] at hge
      exact ofModel_pack_large (Nat.pos_of_ne_zero hm) hge

theorem isNearest_roundWithAccuracy {a : Accuracy} (hy : Places m (q / 2 ^ e) a) (hq : 0 < q)
    (he : e ≤ scale q) :
    IsNearest q (.ofModel (Float.Model.pack (roundWithAccuracy .binary64 .positive m e a))) := by
  obtain ⟨m', e', hcanonical, hvalue, hround⟩ := roundWithAccuracy_eq .positive hy hq he
  rw [hround]
  exact isNearest_pack hcanonical hvalue

/-! ### Products and quotients -/

theorem le_scale (hm : 2 ^ 52 ≤ m) : e ≤ scale (m * 2 ^ e) := by
  have hpos : 0 < m := lt_of_lt_of_le (by decide) hm
  have hlog := (Nat.le_log2 hpos.ne').mpr hm
  rw [scale, log_mul_zpow hpos]
  omega

theorem isNearest_mul_finite (hm : 0 < m) (hn : 0 < n) (hlong : 2 ^ 52 ≤ m * n) :
    IsNearest (m * 2 ^ e * (n * 2 ^ f)) (.ofModel (Float.Model.pack
      (UnpackedFloat.mul .binary64 (.finite .positive m e hm) (.finite .positive n f hn)))) := by
  have hvalue : (m * 2 ^ e * (n * 2 ^ f) : ℚ) = (m * n : ℕ) * 2 ^ (e + f) := by
    rw [zpow_add₀ two_ne_zero]
    push_cast
    ring
  rw [hvalue]
  apply isNearest_roundWithAccuracy
  · exact mul_div_cancel_right₀ _ (by positivity)
  · positivity
  · exact le_scale hlong

/-- What is left of a division is compared with half of the divisor. -/
theorem places_accuracyOfFraction (m : ℕ) (hn : 0 < n) :
    Places (m / n) (m / n) (UnpackedFloat.accuracyOfFraction (m % n) n) := by
  have hn' : (0 : ℚ) < n := by exact_mod_cast hn
  have hdiv : (m : ℚ) / n = (m / n : ℕ) + (m % n : ℕ) / n := by
    rw [eq_comm, ← mul_left_inj' hn'.ne', add_mul, div_mul_cancel₀ _ hn'.ne',
      div_mul_cancel₀ _ hn'.ne', mul_comm]
    exact_mod_cast Nat.div_add_mod m n
  rw [hdiv, UnpackedFloat.accuracyOfFraction]
  generalize m / n = k
  have hlt : ((m % n : ℕ) : ℚ) / n < 1 := by
    rw [div_lt_one hn']
    exact_mod_cast Nat.mod_lt m hn
  generalize m % n = r at hlt
  split
  · rename_i hr
    simp [Places, hr]
  · rename_i hr
    have hpos : (0 : ℚ) < r / n := by
      have := Nat.pos_of_ne_zero hr
      positivity
    rcases lt_trichotomy (2 * r) n with hlow | hmiddle | hhigh
    · have hhalf : (r : ℚ) / n < 1 / 2 := by
        rw [div_lt_div_iff₀ hn' two_pos]
        exact_mod_cast (by omega : r * 2 < 1 * n)
      rw [Nat.compare_eq_lt.mpr hlow]
      exact ⟨by linarith, by linarith⟩
    · have hhalf : (r : ℚ) / n = 1 / 2 := by
        rw [div_eq_div_iff hn'.ne' two_ne_zero]
        exact_mod_cast (by omega : r * 2 = 1 * n)
      rw [Nat.compare_eq_eq.mpr hmiddle, Places, hhalf]
    · have hhalf : (1 : ℚ) / 2 < r / n := by
        rw [div_lt_div_iff₀ two_pos hn']
        exact_mod_cast (by omega : 1 * n < r * 2)
      rw [Nat.compare_eq_gt.mpr hhigh]
      exact ⟨by linarith, by linarith⟩

theorem le_log_div (hm : 0 < m) (hn : 0 < n) :
    m.log2 + e - (n.log2 + 1 + f) ≤ Int.log 2 (m * 2 ^ e / (n * 2 ^ f) : ℚ) := by
  rw [le_log_iff (by positivity), zpow_sub₀ two_ne_zero, zpow_add₀ two_ne_zero,
    zpow_add₀ two_ne_zero, ← Nat.cast_add_one, zpow_natCast, zpow_natCast]
  gcongr
  · exact_mod_cast Nat.log2_self_le hm.ne'
  · exact_mod_cast Nat.lt_log2_self.le

theorem isNearest_div_finite (hm : 0 < m) (hn : 0 < n) :
    IsNearest (m * 2 ^ e / (n * 2 ^ f)) (.ofModel (Float.Model.pack
      (UnpackedFloat.div .binary64 (.finite .positive m e hm) (.finite .positive n f hn)))) := by
  have hlog := @le_log_div m n e f hm hn
  have hq : (0 : ℚ) < m * 2 ^ e / (n * 2 ^ f) := by positivity
  -- Enough zeros are put behind the numerator for the quotient to be long enough.
  obtain ⟨t, ht⟩ : ∃ t, t = min (e - f) (Format.binary64.targetExponent
    (totalExponent m e - totalExponent n f)) := ⟨_, rfl⟩
  have hle : t ≤ scale (m * 2 ^ e / (n * 2 ^ f)) := by
    simp only [Format.targetExponent, totalExponent, Format.mantissaBits, Format.minExponent] at ht
    unfold scale
    omega
  obtain ⟨k, hk⟩ := Int.le.dest (ht.le.trans (min_le_left _ _))
  have hshift : (e - f - t).toNat = k := by omega
  have hdiv : (m * 2 ^ e / (n * 2 ^ f) / 2 ^ t : ℚ) = (m * 2 ^ k : ℕ) / n := by
    have he : e = t + k + f := by omega
    rw [he, zpow_add₀ two_ne_zero, zpow_add₀ two_ne_zero, zpow_natCast]
    push_cast
    field_simp
  have hplaces := places_accuracyOfFraction (m * 2 ^ k) hn
  rw [← hdiv] at hplaces
  have hround := isNearest_roundWithAccuracy hplaces hq hle
  rw [← Nat.shiftLeft_eq, ← hshift, ht] at hround
  exact hround

theorem isNearest_mul (hx : IsPositive x) (hy : IsPositive y) (hlong : 2 ^ 52 ≤ (binaryParts y).1) :
    IsNearest (magnitude x * magnitude y) (x * y) := by
  have hmul : x * y = .ofModel (Float.Model.pack
      (UnpackedFloat.mul .binary64 x.toModel.unpack y.toModel.unpack)) := rfl
  rw [hmul, hx.unpack, hy.unpack]
  exact isNearest_mul_finite hx.pos hy.pos (le_trans hlong (Nat.le_mul_of_pos_left _ hx.pos))

theorem isNearest_div (hx : IsPositive x) (hy : IsPositive y) :
    IsNearest (magnitude x / magnitude y) (x / y) := by
  have hdiv : x / y = .ofModel (Float.Model.pack
      (UnpackedFloat.div .binary64 x.toModel.unpack y.toModel.unpack)) := rfl
  rw [hdiv, hx.unpack, hy.unpack]
  exact isNearest_div_finite hx.pos hy.pos

theorem isNearest_toFloat {n : UInt64} (hn : 0 < n.toNat) : IsNearest n.toNat n.toFloat := by
  have hq : (0 : ℚ) < n.toNat := by exact_mod_cast hn
  have hlog : Int.log 2 (n.toNat : ℚ) = n.toNat.log2 := by simpa using log_mul_zpow hn 0
  obtain ⟨k, hk⟩ : ∃ k, k = (0 - Format.binary64.targetExponent
    (totalExponent n.toNat 0)).toNat := ⟨_, rfl⟩
  have hle : 0 - k ≤ scale (n.toNat : ℚ) := by
    simp only [Format.targetExponent, totalExponent, Format.mantissaBits, Format.minExponent] at hk
    unfold scale
    omega
  have hplaces : Places (n.toNat * 2 ^ k) (n.toNat / 2 ^ (0 - k : ℤ)) .exact := by
    rw [Places, zero_sub, zpow_neg, zpow_natCast, div_inv_eq_mul]
    push_cast
    rfl
  have hround := isNearest_roundWithAccuracy hplaces hq hle
  rw [← Nat.shiftLeft_eq, hk] at hround
  have hnormalize : UnpackedFloat.normalize .binary64 n.toNat 0 .positive =
      UnpackedFloat.round .binary64 .positive n.toNat 0 := by
    have hgt : compare (n.toNat : ℤ) 0 = .gt := Int.compare_eq_gt.mpr (by omega)
    rw [UnpackedFloat.normalize, hgt]
    rfl
  have hfloat : n.toFloat = .ofModel (Float.Model.pack
      (UnpackedFloat.normalize .binary64 n.toNat 0 .positive)) := rfl
  rw [hfloat, hnormalize]
  exact hround

end

end ActionGrammar.Decimal
