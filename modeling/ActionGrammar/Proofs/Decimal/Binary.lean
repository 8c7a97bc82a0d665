import ActionGrammar.Decimal.Notation
import Mathlib

/-! # The bits of a double

A double is a sign, an exponent and a significand, which its bits hold side by side. Those
three make up a finite double in one way only, and negation changes nothing but the sign.
-/

namespace ActionGrammar.Decimal

open Float.Model

open Float.Model.UnpackedFloat (Sign packComponents packedInfinity unpackMantissa unpackExponent
  unpackSign)

/-- The significand and the exponent of a double. A significand of less than 53 bits goes with the
least exponent. -/
structure IsCanonical (m : ℕ) (e : ℤ) : Prop where
  lt : m < 2 ^ 53
  le : -1074 ≤ e
  normal : 2 ^ 52 ≤ m ∨ e = -1074

/-- The greatest exponent stands for infinities and for what is not a number. -/
def IsFinite (x : Float) : Prop := x.toBits.toNat / 2 ^ 52 % 2 ^ 11 ≠ 2047

instance (x : Float) : Decidable (IsFinite x) := inferInstanceAs (Decidable (_ ≠ _))

structure IsPositive (x : Float) : Prop where
  finite : IsFinite x
  sign : isNegative x = false
  pos : 0 < (binaryParts x).1

/-- The absolute value of a finite double. Other doubles count as `2 ^ 1024` or more. -/
def magnitude (x : Float) : ℚ := (binaryParts x).1 * 2 ^ (binaryParts x).2

def signBits (negative : Bool) : ℕ := if negative then 2 ^ 63 else 0

def sign (negative : Bool) : Sign := if negative then .negative else .positive

section

variable {x y : Float}

theorem isCanonical_binaryParts (x : Float) :
    IsCanonical (binaryParts x).1 (binaryParts x).2 := by
  unfold binaryParts
  have hlt : x.toBits.toNat % 4503599627370496 < 4503599627370496 := Nat.mod_lt _ (by decide)
  dsimp only
  split
  · exact ⟨by dsimp only; omega, Int.le_refl _, .inr rfl⟩
  · refine ⟨by dsimp only; omega, ?_, .inl (Nat.le_add_right _ _)⟩
    simp only [Int.ofNat_eq_natCast]
    omega

theorem signBits_isNegative (x : Float) :
    signBits (isNegative x) = x.toBits.toNat / 2 ^ 63 * 2 ^ 63 := by
  have hlt : x.toBits.toNat < 2 ^ 64 := x.toBits.toNat_lt
  rw [signBits, isNegative]
  simp only [decide_eq_true_eq]
  split <;> omega

theorem toBits_eq (x : Float) :
    x.toBits.toNat = signBits (isNegative x) +
      ((binaryParts x).2 + 1074).toNat * 2 ^ 52 + (binaryParts x).1 := by
  have hlt : x.toBits.toNat < 2 ^ 64 := x.toBits.toNat_lt
  rw [signBits_isNegative]
  unfold binaryParts
  dsimp only
  split
  · simp only [Int.reduceNeg, neg_add_cancel, Int.toNat_zero]
    omega
  · simp only [Int.ofNat_eq_natCast]
    omega

theorem ext_of_toBits (h : x.toBits.toNat = y.toBits.toNat) : x = y :=
  Float.toBits_inj.mp (UInt64.toNat_inj.mp h)

theorem ext_of_parts (hs : isNegative x = isNegative y) (h : binaryParts x = binaryParts y) :
    x = y := by
  apply ext_of_toBits
  rw [toBits_eq x, toBits_eq y, hs, h]

end

/-! ### Packing -/

theorem toNat_packComponents (s : Sign) (e : BitVec 11) (m : BitVec 52) :
    (packComponents .binary64 s e m).toNat =
      s.toBitVec.toNat * 2 ^ 63 + e.toNat * 2 ^ 52 + m.toNat := by
  have he := e.isLt
  have hm := m.isLt
  rw [packComponents, BitVec.toNat_append, BitVec.toNat_append,
    ← Nat.shiftLeft_add_eq_or_of_lt he, ← Nat.shiftLeft_add_eq_or_of_lt hm]
  simp only [Nat.shiftLeft_eq]
  omega

theorem toNat_sign (negative : Bool) :
    (sign negative).toBitVec.toNat * 2 ^ 63 = signBits negative := by
  cases negative <;> rfl

theorem pack_large (s : Sign) {m : ℕ} {e : ℤ} (hm : 0 < m) (he : 971 < e) :
    UnpackedFloat.pack .binary64 (.finite s m e hm) = packedInfinity .binary64 s := by
  have hlarge : 2 ^ 11 ≤ (e + (1023 : ℕ) + (52 : ℕ)).toNat + 1 := by omega
  rw [UnpackedFloat.pack]
  exact if_pos hlarge

theorem toNat_pack_finite {negative : Bool} {m : ℕ} {e : ℤ} (h : IsCanonical m e) (hm : 0 < m)
    (he : e ≤ 971) :
    (UnpackedFloat.pack .binary64 (.finite (sign negative) m e hm)).toNat =
      signBits negative + (e + 1074).toNat * 2 ^ 52 + m := by
  have hle := h.le
  have hlt := h.lt
  have hsmall : ¬ 2 ^ 11 ≤ (e + (1023 : ℕ) + (52 : ℕ)).toNat + 1 := by omega
  have hlog : m.log2 + 1 = 53 ↔ 2 ^ 52 ≤ m := by
    rw [← Nat.le_log2 hm.ne']
    have := (Nat.log2_lt hm.ne').mpr hlt
    omega
  rw [UnpackedFloat.pack]
  refine (congrArg BitVec.toNat (if_neg hsmall)).trans ?_
  by_cases hn : 2 ^ 52 ≤ m
  · refine (congrArg BitVec.toNat (if_pos (hlog.mpr hn))).trans ?_
    rw [toNat_packComponents, toNat_sign, BitVec.toNat_ofNat, BitVec.toNat_ofNat]
    change _ + (e + (1023 : ℕ) + (52 : ℕ)).toNat % 2 ^ 11 * 2 ^ 52 + m % 2 ^ 52 = _
    omega
  · have he : e = -1074 := h.normal.resolve_left hn
    refine (congrArg BitVec.toNat (if_neg (mt hlog.mp hn))).trans ?_
    rw [toNat_packComponents, toNat_sign, BitVec.toNat_ofNat, BitVec.toNat_ofNat]
    omega

/-! ### Unpacking -/

section

variable (b : BitVec Format.binary64.numBits)

theorem toNat_unpackMantissa : (unpackMantissa b).toNat = b.toNat % 2 ^ 52 := by
  rw [unpackMantissa, BitVec.toNat_cast, BitVec.extractLsb_toNat]
  rfl

theorem toNat_unpackExponent : (unpackExponent b).toNat = b.toNat / 2 ^ 52 % 2 ^ 11 := by
  rw [unpackExponent, BitVec.toNat_cast, BitVec.extractLsb_toNat, Nat.shiftRight_eq_div_pow]
  rfl

theorem ofBitVec_unpackSign :
    Sign.ofBitVec (unpackSign b) = sign (decide (2 ^ 63 ≤ b.toNat)) := by
  have hlt : b.toNat < 2 ^ 64 := b.isLt
  have hbit : (unpackSign b).toNat = b.toNat / 2 ^ 63 % 2 := by
    rw [unpackSign, BitVec.toNat_cast, BitVec.extractLsb_toNat, Nat.shiftRight_eq_div_pow]
    rfl
  have hzero : unpackSign b = 0#1 ↔ ¬ 2 ^ 63 ≤ b.toNat := by
    rw [← BitVec.toNat_inj, hbit]
    simp only [BitVec.toNat_ofNat, Nat.zero_mod]
    omega
  simp only [Sign.ofBitVec, hzero, sign, decide_eq_true_eq, ite_not]

theorem toNat_one_append (v : BitVec 52) : (1#1 ++ v).toNat = 2 ^ 52 + v.toNat := by
  rw [BitVec.toNat_append, ← Nat.shiftLeft_add_eq_or_of_lt v.isLt]
  rfl

end

theorem unpack_eq (b : UInt64) :
    UnpackedFloat.unpack .binary64 b.toBitVec =
      if b.toNat / 2 ^ 52 % 2 ^ 11 = 2047 then
        if b.toNat % 2 ^ 52 = 0 then .infinity (sign (decide (2 ^ 63 ≤ b.toNat))) else .notANumber
      else if b.toNat / 2 ^ 52 % 2 ^ 11 = 0 then
        if h : b.toNat % 2 ^ 52 = 0 then .zero (sign (decide (2 ^ 63 ≤ b.toNat)))
        else .finite (sign (decide (2 ^ 63 ≤ b.toNat))) (b.toNat % 2 ^ 52) (-1074) (by omega)
      else .finite (sign (decide (2 ^ 63 ≤ b.toNat))) (2 ^ 52 + b.toNat % 2 ^ 52)
        ((b.toNat / 2 ^ 52 % 2 ^ 11 : ℕ) - 1075) (by omega) := by
  have hmantissa : (@unpackMantissa .binary64 b.toBitVec).toNat = b.toNat % 2 ^ 52 :=
    toNat_unpackMantissa b.toBitVec
  have hexponent : (@unpackExponent .binary64 b.toBitVec).toNat = b.toNat / 2 ^ 52 % 2 ^ 11 :=
    toNat_unpackExponent b.toBitVec
  have hsign : Sign.ofBitVec (@unpackSign .binary64 b.toBitVec) =
      sign (decide (2 ^ 63 ≤ b.toNat)) := ofBitVec_unpackSign b.toBitVec
  have hlast : @unpackExponent .binary64 b.toBitVec = -1#_ ↔
      b.toNat / 2 ^ 52 % 2 ^ 11 = 2047 := by
    rw [← BitVec.toNat_inj, hexponent]
    rfl
  have hfirst : @unpackExponent .binary64 b.toBitVec = 0#_ ↔ b.toNat / 2 ^ 52 % 2 ^ 11 = 0 := by
    rw [← BitVec.toNat_inj, hexponent]
    rfl
  have hnone : @unpackMantissa .binary64 b.toBitVec = 0#_ ↔ b.toNat % 2 ^ 52 = 0 := by
    rw [← BitVec.toNat_inj, hmantissa]
    rfl
  have happend : (1#1 ++ @unpackMantissa .binary64 b.toBitVec).toNat =
      2 ^ 52 + b.toNat % 2 ^ 52 := by
    rw [← hmantissa]
    exact toNat_one_append _
  simp only [UnpackedFloat.unpack, hlast, hfirst, hnone, hsign, happend, hmantissa, hexponent]
  split
  · rfl
  · split
    · split
      · rfl
      · rename_i hzero _
        congr 1
        rw [hzero]
        rfl
    · rfl

section

variable {x y : Float}

theorem unpack_finite (hx : IsFinite x) (hm : 0 < (binaryParts x).1) :
    x.toModel.unpack =
      .finite (sign (isNegative x)) (binaryParts x).1 (binaryParts x).2 hm := by
  refine (unpack_eq x.toBits).trans ((if_neg hx).trans ?_)
  split
  · rename_i hzero
    have hparts : binaryParts x = (x.toBits.toNat % 2 ^ 52, -1074) := if_pos hzero
    rw [hparts] at hm
    refine (dif_neg hm.ne').trans ?_
    simp only [hparts]
    rfl
  · rename_i hzero
    have hparts : binaryParts x = (2 ^ 52 + x.toBits.toNat % 2 ^ 52,
      Int.ofNat (x.toBits.toNat / 2 ^ 52 % 2 ^ 11) - 1075) := if_neg hzero
    simp only [hparts]
    rfl

theorem IsPositive.unpack (hx : IsPositive x) :
    x.toModel.unpack = .finite .positive (binaryParts x).1 (binaryParts x).2 hx.pos := by
  rw [unpack_finite hx.finite hx.pos, hx.sign]
  rfl

theorem unpack_zero (hx : IsFinite x) (hm : (binaryParts x).1 = 0) :
    x.toModel.unpack = .zero (sign (isNegative x)) := by
  refine (unpack_eq x.toBits).trans ((if_neg hx).trans ?_)
  split
  · rename_i hzero
    have hparts : binaryParts x = (x.toBits.toNat % 2 ^ 52, -1074) := if_pos hzero
    rw [hparts] at hm
    exact dif_pos hm
  · rename_i hzero
    have hparts : binaryParts x = (2 ^ 52 + x.toBits.toNat % 2 ^ 52,
      Int.ofNat (x.toBits.toNat / 2 ^ 52 % 2 ^ 11) - 1075) := if_neg hzero
    rw [hparts] at hm
    omega

theorem unpack_infinite (hx : ¬ IsFinite x) :
    x.toModel.unpack = .infinity (sign (isNegative x)) ∨ x.toModel.unpack = .notANumber := by
  have hunpack := (unpack_eq x.toBits).trans (if_pos (not_not.mp hx))
  by_cases hf : x.toBits.toNat % 2 ^ 52 = 0
  · exact .inl (hunpack.trans (if_pos hf))
  · exact .inr (hunpack.trans (if_neg hf))

theorem parts_of_toBits {negative : Bool} {m : ℕ} {e : ℤ} (h : IsCanonical m e) (he : e ≤ 971)
    (hx : x.toBits.toNat = signBits negative + (e + 1074).toNat * 2 ^ 52 + m) :
    IsFinite x ∧ isNegative x = negative ∧ binaryParts x = (m, e) := by
  have hle := h.le
  have hlt := h.lt
  have hsign : signBits negative = 0 ∨ signBits negative = 2 ^ 63 := by
    cases negative
    · exact .inl rfl
    · exact .inr rfl
  have hexponent : x.toBits.toNat / 2 ^ 52 % 2 ^ 11 =
      if 2 ^ 52 ≤ m then (e + 1075).toNat else 0 := by
    have := h.normal
    split <;> omega
  have hmantissa : x.toBits.toNat % 2 ^ 52 = if 2 ^ 52 ≤ m then m - 2 ^ 52 else m := by
    split <;> omega
  refine ⟨?_, ?_, ?_⟩
  · rw [IsFinite, hexponent]
    split <;> omega
  · cases negative
    · have : x.toBits.toNat < 2 ^ 63 := by
        have : signBits false = 0 := rfl
        omega
      simpa [isNegative] using this
    · have : 2 ^ 63 ≤ x.toBits.toNat := by
        have : signBits true = 2 ^ 63 := rfl
        omega
      simpa [isNegative] using this
  · by_cases hn : 2 ^ 52 ≤ m
    · have hpos : x.toBits.toNat / 2 ^ 52 % 2 ^ 11 ≠ 0 := by
        rw [hexponent, if_pos hn]
        omega
      refine (if_neg hpos).trans (Prod.ext ?_ ?_)
      · change 2 ^ 52 + x.toBits.toNat % 2 ^ 52 = m
        rw [hmantissa, if_pos hn]
        omega
      · change ((x.toBits.toNat / 2 ^ 52 % 2 ^ 11 : ℕ) : ℤ) - 1075 = e
        rw [hexponent, if_pos hn]
        omega
    · have hzero : x.toBits.toNat / 2 ^ 52 % 2 ^ 11 = 0 := by
        rw [hexponent, if_neg hn]
      refine (if_pos hzero).trans (Prod.ext ?_ (h.normal.resolve_left hn).symm)
      change x.toBits.toNat % 2 ^ 52 = m
      rw [hmantissa, if_neg hn]

/-! ### Comparing -/

theorem eq_of_beq (hy : IsPositive y) (h : (x == y) = true) : x = y := by
  have hne (z : Float) (hz : (binaryParts z).1 = 0) : y ≠ z := by
    rintro rfl
    exact hy.pos.ne' hz
  obtain ⟨-, -, heq | ⟨-, hzero⟩ | ⟨-, hzero⟩⟩ := Float.beq_iff_ne_nan_and_eq.mp h
  · exact heq
  · exact absurd hzero (hne _ rfl)
  · exact absurd hzero (hne _ rfl)

/-! ### Infinities -/

theorem toBits_infinity : infinity.toBits.toNat = 2047 * 2 ^ 52 := rfl

theorem not_isFinite_infinity : ¬ IsFinite infinity := by decide

theorem beq_infinity_of_isFinite (hx : IsFinite x) : (x == infinity) = false := by
  rw [← Bool.not_eq_true]
  intro h
  obtain ⟨-, -, rfl | ⟨-, hzero⟩ | ⟨-, hzero⟩⟩ := Float.beq_iff_ne_nan_and_eq.mp h
  · exact not_isFinite_infinity hx
  · exact absurd hzero (by decide)
  · exact absurd hzero (by decide)

theorem unpack_of_not_isFinite (hx : ¬ IsFinite x) (hnan : x.isNaN = false) :
    x.toModel.unpack = .infinity (sign (isNegative x)) := by
  refine (unpack_infinite hx).resolve_right fun hn => ?_
  have hisNaN : x.isNaN = x.toModel.unpack.isNaN := rfl
  rw [hisNaN, hn] at hnan
  cases hnan

theorem isNaN_of_isFinite (hx : IsFinite x) : x.isNaN = false := by
  have hisNaN : x.isNaN = x.toModel.unpack.isNaN := rfl
  rw [hisNaN]
  by_cases hm : (binaryParts x).1 = 0
  · rw [unpack_zero hx hm]
    rfl
  · rw [unpack_finite hx (Nat.pos_of_ne_zero hm)]
    rfl

theorem eq_infinity (hx : ¬ IsFinite x) (hnan : x.isNaN = false) (hn : isNegative x = false) :
    x = infinity := by
  have hunpack : x.toModel.unpack = infinity.toModel.unpack := by
    rw [unpack_of_not_isFinite hx hnan, hn]
    rfl
  have hbits : x.toBits.toBitVec = infinity.toBits.toBitVec :=
    (UnpackedFloat.unpack_inj_of_valid x.toModel.valid infinity.toModel.valid).mp hunpack
  exact Float.toBits_inj.mp (UInt64.toBitVec_inj.mp hbits)

theorem ofModel_pack_large {m : ℕ} {e : ℤ} (hm : 0 < m) (he : 971 < e) :
    Float.ofModel (Float.Model.pack (.finite .positive m e hm)) = infinity := by
  apply ext_of_toBits
  rw [toBits_infinity]
  change (UnpackedFloat.pack .binary64 (.finite .positive m e hm)).toNat = _
  rw [pack_large _ hm he]
  rfl

theorem ofModel_pack_finite {negative : Bool} {m : ℕ} {e : ℤ} (h : IsCanonical m e) (hm : 0 < m)
    (he : e ≤ 971) (hx : x = .ofModel (Float.Model.pack (.finite (sign negative) m e hm))) :
    IsFinite x ∧ isNegative x = negative ∧ binaryParts x = (m, e) := by
  apply parts_of_toBits h he
  rw [hx]
  exact toNat_pack_finite h hm he

/-! ### Negation -/

theorem neg_sign (negative : Bool) : -(sign negative) = sign (!negative) := by
  cases negative <;> rfl

theorem exponent_le (hx : IsFinite x) : (binaryParts x).2 ≤ 971 := by
  have hx : x.toBits.toNat / 2 ^ 52 % 2 ^ 11 ≠ 2047 := hx
  unfold binaryParts
  dsimp only
  split <;> simp only [Int.ofNat_eq_natCast] <;> omega

theorem parts_neg (hx : IsFinite x) :
    IsFinite (-x) ∧ isNegative (-x) = !isNegative x ∧ binaryParts (-x) = binaryParts x := by
  have hneg : -x = .ofModel (Float.Model.pack x.toModel.unpack.neg) := rfl
  have hcanonical := isCanonical_binaryParts x
  by_cases hm : (binaryParts x).1 = 0
  · rw [unpack_zero hx hm, UnpackedFloat.neg, neg_sign] at hneg
    have he : (binaryParts x).2 = -1074 := by
      have := hcanonical.normal
      omega
    apply parts_of_toBits hcanonical (exponent_le hx)
    rw [hneg, hm, he]
    change (UnpackedFloat.packedZero .binary64 (sign !isNegative x)).toNat = _
    cases isNegative x <;> rfl
  · have hm := Nat.pos_of_ne_zero hm
    rw [unpack_finite hx hm, UnpackedFloat.neg, neg_sign] at hneg
    exact ofModel_pack_finite hcanonical hm (exponent_le hx) hneg

theorem neg_neg_of_isFinite (hx : IsFinite x) : - -x = x := by
  obtain ⟨hfinite, hsign, hparts⟩ := parts_neg hx
  obtain ⟨-, hsign', hparts'⟩ := parts_neg hfinite
  apply ext_of_parts
  · rw [hsign', hsign, Bool.not_not]
  · rw [hparts', hparts]

theorem neg_eq_infinity (hx : ¬ IsFinite x) (hnan : x.isNaN = false) (hn : isNegative x = true) :
    -x = infinity := by
  have hneg : -x = .ofModel (Float.Model.pack x.toModel.unpack.neg) := rfl
  rw [hneg, unpack_of_not_isFinite hx hnan, hn]
  apply ext_of_toBits
  rw [toBits_infinity]
  rfl

end

end ActionGrammar.Decimal
