import ActionGrammar.Proofs.Decimal.Binary

/-! # Rounding to a double

A positive rational number is rounded to the nearest multiple of its unit in the last
place, and to the even one of two. All that is kept of what is cut off are two bits, and
they are enough to tell on which side of the middle the number lies.
-/

namespace ActionGrammar.Decimal

open Float.Model

open Float.Model.UnpackedFloat (Accuracy ExtendedMantissa Sign roundWithAccuracy
  shiftToTargetExponent)

/-! ### Rounding to a natural number -/

/-- The nearest natural number, and the even one of two. -/
def roundHalfEven (y : ℚ) : ℕ :=
  if y < ⌊y⌋₊ + 1 / 2 then ⌊y⌋₊
  else if y = ⌊y⌋₊ + 1 / 2 then ⌊y⌋₊ + ⌊y⌋₊ % 2
  else ⌊y⌋₊ + 1

theorem roundHalfEven_natCast (n : ℕ) : roundHalfEven n = n := by
  rw [roundHalfEven, Nat.floor_natCast, if_pos (by linarith)]

theorem floor_le_roundHalfEven (y : ℚ) : ⌊y⌋₊ ≤ roundHalfEven y := by
  unfold roundHalfEven
  split
  · exact Nat.le_refl _
  · split <;> omega

theorem roundHalfEven_le (y : ℚ) : roundHalfEven y ≤ ⌊y⌋₊ + 1 := by
  unfold roundHalfEven
  split
  · omega
  · split <;> omega

theorem roundHalfEven_mono {y z : ℚ} (h : y ≤ z) : roundHalfEven y ≤ roundHalfEven z := by
  rcases Nat.eq_or_lt_of_le (Nat.floor_le_floor h) with heq | hlt
  · -- On either side of the same middle.
    unfold roundHalfEven
    rw [heq]
    split
    · split
      · exact Nat.le_refl _
      · split <;> omega
    · rename_i hy
      have hz : ¬ z < ⌊z⌋₊ + 1 / 2 := fun hz => hy (lt_of_le_of_lt h hz)
      rw [if_neg hz]
      split
      · split <;> omega
      · rename_i hne
        have hz' : z ≠ ⌊z⌋₊ + 1 / 2 := fun hz' => hne (le_antisymm (hz' ▸ h) (not_lt.mp hy))
        rw [if_neg hz']
  · calc
      roundHalfEven y ≤ ⌊y⌋₊ + 1 := roundHalfEven_le y
      _ ≤ ⌊z⌋₊ := hlt
      _ ≤ roundHalfEven z := floor_le_roundHalfEven z

/-! ### What is cut off -/

/-- The number lies above the significand as the accuracy says. -/
def Places (m : ℕ) (y : ℚ) : Accuracy → Prop
  | .exact => y = m
  | .inexact .lt => m < y ∧ y < m + 1 / 2
  | .inexact .eq => y = m + 1 / 2
  | .inexact .gt => m + 1 / 2 < y ∧ y < m + 1

theorem Places.bounds {m : ℕ} {y : ℚ} {a : Accuracy} (h : Places m y a) : m ≤ y ∧ y < m + 1 := by
  match a, h with
  | .exact, h => exact ⟨h.ge, by linarith [h.le]⟩
  | .inexact .lt, h => exact ⟨h.1.le, by linarith [h.2]⟩
  | .inexact .eq, h => exact ⟨by linarith [h.ge], by linarith [h.le]⟩
  | .inexact .gt, h => exact ⟨by linarith [h.1], h.2⟩

theorem Places.roundToNearestEven {m : ℕ} {y : ℚ} {a : Accuracy} (h : Places m y a) :
    a.roundToNearestEven m = roundHalfEven y := by
  have hfloor : ⌊y⌋₊ = m := by
    obtain ⟨hle, hlt⟩ := h.bounds
    exact (Nat.floor_eq_iff (le_trans (Nat.cast_nonneg m) hle)).mpr ⟨hle, hlt⟩
  rw [roundHalfEven, hfloor]
  match a, h with
  | .exact, h => exact (if_pos (by linarith [h.le])).symm
  | .inexact .lt, h => exact (if_pos h.2).symm
  | .inexact .eq, h => exact ((if_neg h.not_lt).trans (if_pos h)).symm
  | .inexact .gt, h => exact ((if_neg h.1.le.not_gt).trans (if_neg h.1.ne')).symm

/-- The number is what the significand and the two bits stand for. -/
def IsExtended (em : ExtendedMantissa) (y : ℚ) : Prop := Places em.mantissa y em.accuracy

theorem isExtended_ofMantissaAndAccuracy {m : ℕ} {y : ℚ} {a : Accuracy} (h : Places m y a) :
    IsExtended (.ofMantissaAndAccuracy m a) y := by
  match a, h with
  | .exact, h | .inexact .lt, h | .inexact .eq, h | .inexact .gt, h => exact h

theorem IsExtended.shiftRightOne {em : ExtendedMantissa} {y : ℚ} (h : IsExtended em y) :
    IsExtended em.shiftRightOne (y / 2) := by
  obtain ⟨m, r, s⟩ := em
  -- The last bit of the significand is the first one that is cut off.
  obtain ⟨k, rfl | rfl⟩ := Nat.even_or_odd' m
  · have hhalf : 2 * k / 2 = k := by omega
    have hbit : 2 * k % 2 = 0 := by omega
    cases r <;> cases s <;>
      simp [IsExtended, Places, ExtendedMantissa.shiftRightOne, ExtendedMantissa.accuracy,
        hhalf, hbit] at h ⊢
    all_goals first | linarith | (constructor <;> linarith)
  · have hhalf : (2 * k + 1) / 2 = k := by omega
    have hbit : (2 * k + 1) % 2 = 1 := by omega
    cases r <;> cases s <;>
      simp [IsExtended, Places, ExtendedMantissa.shiftRightOne, ExtendedMantissa.accuracy,
        hhalf, hbit] at h ⊢
    all_goals first | linarith | (constructor <;> linarith)

theorem IsExtended.shiftRight {em : ExtendedMantissa} {y : ℚ} (h : IsExtended em y) (n : ℕ) :
    IsExtended (em >>> n) (y / 2 ^ n) := by
  induction n with
  | zero => rwa [pow_zero, div_one]
  | succ n ih =>
    have hstep := ih.shiftRightOne
    rwa [div_div, ← pow_succ] at hstep

/-! ### Units in the last place -/

def scale (q : ℚ) : ℤ := max (Int.log 2 q - 52) (-1074)

def nearest (q : ℚ) : ℚ := roundHalfEven (q / 2 ^ scale q) * 2 ^ scale q

section

variable {q r : ℚ}

theorem log_lt_iff (hq : 0 < q) {z : ℤ} : Int.log 2 q < z ↔ q < 2 ^ z := by
  simpa using (Int.lt_zpow_iff_log_lt Nat.one_lt_two hq).symm

theorem le_log_iff (hq : 0 < q) {z : ℤ} : z ≤ Int.log 2 q ↔ 2 ^ z ≤ q := by
  simpa using (Int.zpow_le_iff_le_log Nat.one_lt_two hq).symm

theorem log_mul_zpow {m : ℕ} (hm : 0 < m) (e : ℤ) :
    Int.log 2 (m * 2 ^ e : ℚ) = m.log2 + e := by
  have hq : (0 : ℚ) < m * 2 ^ e := by positivity
  apply le_antisymm
  · rw [← Int.lt_add_one_iff, log_lt_iff hq, add_right_comm, zpow_add₀ two_ne_zero,
      ← Nat.cast_add_one, zpow_natCast]
    gcongr
    exact_mod_cast Nat.lt_log2_self
  · rw [le_log_iff hq, zpow_add₀ two_ne_zero, zpow_natCast]
    gcongr
    exact_mod_cast Nat.log2_self_le hm.ne'

theorem neg_le_scale (q : ℚ) : -1074 ≤ scale q := le_max_right _ _

theorem scale_mono (hq : 0 < q) (h : q ≤ r) : scale q ≤ scale r := by
  have hlog : Int.log 2 q ≤ Int.log 2 r := Int.log_mono_right hq h
  exact max_le_max (by omega) (le_refl _)

theorem div_scale_lt (hq : 0 < q) : q / 2 ^ scale q < 2 ^ 53 := by
  have hlog : Int.log 2 q < 53 + scale q := by
    have := le_max_left (Int.log 2 q - 52) (-1074)
    unfold scale
    omega
  rw [div_lt_iff₀ (by positivity), ← zpow_natCast, ← zpow_add₀ two_ne_zero]
  exact (log_lt_iff hq).mp hlog

theorem le_div_scale (hq : 0 < q) (h : -1074 < scale q) : 2 ^ 52 ≤ q / 2 ^ scale q := by
  have hlog : 52 + scale q ≤ Int.log 2 q := by
    unfold scale at h ⊢
    omega
  rw [le_div_iff₀ (by positivity), ← zpow_natCast, ← zpow_add₀ two_ne_zero]
  exact (le_log_iff hq).mp hlog

theorem roundHalfEven_div_scale_le (hq : 0 < q) : roundHalfEven (q / 2 ^ scale q) ≤ 2 ^ 53 := by
  rw [← roundHalfEven_natCast (2 ^ 53)]
  exact roundHalfEven_mono (by exact_mod_cast (div_scale_lt hq).le)

theorem le_roundHalfEven_div_scale (hq : 0 < q) (h : -1074 < scale q) :
    2 ^ 52 ≤ roundHalfEven (q / 2 ^ scale q) := by
  rw [← roundHalfEven_natCast (2 ^ 52)]
  exact roundHalfEven_mono (by exact_mod_cast le_div_scale hq h)

theorem nearest_mono (hq : 0 < q) (h : q ≤ r) : nearest q ≤ nearest r := by
  rcases eq_or_lt_of_le (scale_mono hq h) with hscale | hscale
  · unfold nearest
    rw [← hscale]
    gcongr
    exact roundHalfEven_mono (by gcongr)
  · -- A greater unit goes with numbers that are not below a power of two between them.
    have hlow : -1074 < scale r := lt_of_le_of_lt (neg_le_scale q) hscale
    calc nearest q ≤ (2 ^ 53 : ℕ) * 2 ^ scale q := by
          unfold nearest
          gcongr
          exact roundHalfEven_div_scale_le hq
      _ = (2 ^ 52 : ℕ) * 2 ^ (scale q + 1) := by
          rw [zpow_add_one₀ two_ne_zero]
          push_cast
          ring
      _ ≤ nearest r := by
          unfold nearest
          gcongr
          · exact le_roundHalfEven_div_scale (lt_of_lt_of_le hq h) hlow
          · exact one_le_two
          · omega

theorem nearest_eq_zero (hq : 0 < q) (h : q < 2 ^ (-1075 : ℤ)) : nearest q = 0 := by
  have hlog : Int.log 2 q < -1075 := (log_lt_iff hq).mpr h
  have hscale : scale q = -1074 := by
    unfold scale
    omega
  have hhalf : q / 2 ^ (-1074 : ℤ) < 1 / 2 := by
    rw [div_lt_iff₀ (by positivity), one_div, ← zpow_neg_one, ← zpow_add₀ two_ne_zero]
    exact h
  have hfloor : ⌊q / 2 ^ (-1074 : ℤ)⌋₊ = 0 := Nat.floor_eq_zero.mpr (by linarith)
  rw [nearest, hscale, roundHalfEven, hfloor, Nat.cast_zero, if_pos (by linarith), Nat.cast_zero,
    zero_mul]

theorem nearest_eq_self {m : ℕ} {e : ℤ} (hpos : 0 < m) (hm : m < 2 ^ 53) (he : -1074 ≤ e) :
    nearest (m * 2 ^ e) = m * 2 ^ e := by
  have hscale : scale (m * 2 ^ e) ≤ e := by
    have hlog := (Nat.log2_lt hpos.ne').mpr hm
    rw [scale, log_mul_zpow hpos]
    omega
  obtain ⟨k, hk⟩ := Int.le.dest hscale
  have hdiv : (m * 2 ^ e : ℚ) / 2 ^ scale (m * 2 ^ e) = (m * 2 ^ k : ℕ) := by
    rw [div_eq_iff (by positivity)]
    push_cast
    rw [mul_assoc, ← zpow_natCast, ← zpow_add₀ two_ne_zero, add_comm, hk]
  rw [nearest, hdiv, roundHalfEven_natCast, ← hdiv, div_mul_cancel₀ _ (by positivity)]

end

/-! ### Rounding what is known in part -/

section

variable {q : ℚ} {m : ℕ} {e : ℤ} {a : Accuracy}

theorem shiftToTargetExponent_eq (m : ℕ) (e : ℤ) (a : Accuracy) :
    shiftToTargetExponent .binary64 m e a =
      (ExtendedMantissa.ofMantissaAndAccuracy m a >>> (max (m.log2 + e - 52) (-1074) - e).toNat,
        e + (max (m.log2 + e - 52) (-1074) - e).toNat) := by
  have htarget : Format.binary64.targetExponent (totalExponent m e) =
      max (m.log2 + e - 52) (-1074) := by
    simp only [Format.targetExponent, totalExponent, Format.mantissaBits, Format.minExponent]
    omega
  rw [shiftToTargetExponent, htarget]
  rfl

theorem max_log2_eq_scale (hy : Places m (q / 2 ^ e) a) (hq : 0 < q) (he : e ≤ scale q) :
    max (m.log2 + e - 52) (-1074) = scale q := by
  obtain ⟨hle, hlt⟩ := hy.bounds
  rw [le_div_iff₀ (by positivity)] at hle
  rw [div_lt_iff₀ (by positivity)] at hlt
  have hlog (k : ℕ) (hk : m < 2 ^ k) : Int.log 2 q < k + e := by
    rw [log_lt_iff hq, zpow_add₀ two_ne_zero, zpow_natCast]
    refine lt_of_lt_of_le hlt ?_
    gcongr
    exact_mod_cast hk
  by_cases hm : m = 0
  · subst hm
    have hlog := hlog 0 (by decide)
    have hzero : Nat.log2 0 = 0 := by decide
    unfold scale at he ⊢
    omega
  · have hlog := hlog (m.log2 + 1) Nat.lt_log2_self
    have hpos := Nat.pos_of_ne_zero hm
    have hlog' : m.log2 + e ≤ Int.log 2 q := by
      rw [← log_mul_zpow hpos]
      exact Int.log_mono_right (by positivity) hle
    have heq : Int.log 2 q = m.log2 + e := by omega
    rw [scale, heq]

theorem exists_canonical (hlow : -1074 ≤ e) (hm : m ≤ 2 ^ 53) (hnormal : -1074 < e → 2 ^ 52 ≤ m) :
    ∃ m' e', IsCanonical m' e' ∧ (m' * 2 ^ e' : ℚ) = m * 2 ^ e ∧
      (shiftToTargetExponent .binary64 m e .exact).1.mantissa = m' ∧
      (shiftToTargetExponent .binary64 m e .exact).2 = e' := by
  rw [shiftToTargetExponent_eq]
  rcases Nat.lt_or_eq_of_le hm with hlt | rfl
  · have hlog : m.log2 ≤ 52 := by
      by_cases hz : m = 0
      · simp [hz]
      · have := (Nat.log2_lt hz).mpr hlt
        omega
    have hshift : (max (m.log2 + e - 52) (-1074) - e).toNat = 0 := by omega
    rw [hshift]
    refine ⟨m, e, ⟨hlt, hlow, ?_⟩, rfl, rfl, add_zero e⟩
    omega
  · have hshift : (max ((2 ^ 53 : ℕ).log2 + e - 52) (-1074) - e).toNat = 1 := by
      rw [Nat.log2_two_pow]
      omega
    rw [hshift]
    refine ⟨2 ^ 52, e + 1, ⟨by decide, by omega, .inl (le_refl _)⟩, ?_, rfl, rfl⟩
    rw [zpow_add_one₀ two_ne_zero]
    push_cast
    ring

/-- If enough bits of a number are known, it is rounded as if all of them were. -/
theorem roundWithAccuracy_eq (s : Sign) (hy : Places m (q / 2 ^ e) a) (hq : 0 < q)
    (he : e ≤ scale q) :
    ∃ m' e', IsCanonical m' e' ∧ m' * 2 ^ e' = nearest q ∧
      roundWithAccuracy .binary64 s m e a =
        if h : m' = 0 then .zero s else .finite s m' e' (Nat.pos_of_ne_zero h) := by
  obtain ⟨k, hk⟩ := Int.le.dest he
  have hshift : shiftToTargetExponent .binary64 m e a =
      (ExtendedMantissa.ofMantissaAndAccuracy m a >>> k, scale q) := by
    have hamount : (scale q - e).toNat = k := by omega
    rw [shiftToTargetExponent_eq, max_log2_eq_scale hy hq he, hamount, hk]
  have hrounded : (ExtendedMantissa.ofMantissaAndAccuracy m a >>> k).roundedMantissa =
      roundHalfEven (q / 2 ^ scale q) := by
    have hext := (isExtended_ofMantissaAndAccuracy hy).shiftRight k
    rw [div_div, ← zpow_natCast, ← zpow_add₀ two_ne_zero, hk] at hext
    exact hext.roundToNearestEven
  obtain ⟨m', e', hcanonical, hvalue, hm', he'⟩ := exists_canonical (neg_le_scale q)
    (roundHalfEven_div_scale_le hq) (le_roundHalfEven_div_scale hq)
  refine ⟨m', e', hcanonical, hvalue, ?_⟩
  rw [roundWithAccuracy, hshift]
  simp only [hrounded, hm', he']

end

end ActionGrammar.Decimal
