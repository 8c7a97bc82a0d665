import ActionGrammar.Proofs.Decimal.Shortest
import ActionGrammar.Proofs.GrammarText.Number

/-! # Positional notation

Wherever the point is put, the digits are the same number. So a positive double that is
written without an exponent is read back, and one that is written with an exponent shows
by the letter.
-/

namespace ActionGrammar.Decimal

open ActionGrammar.GrammarText (IsDigits IsFraction IsSigned isDigits_singleton natOfDigits_eq
  natOfDigits_toDigits readFloat?_eq readUnsigned?_fraction)

/-! ### The value of digits -/

section

variable {d : Decimal} {ds es : List Char}

theorem natOfDigits_append_zeros (ds : List Char) (k : ℕ) :
    natOfDigits (ds ++ List.replicate k '0') = natOfDigits ds * 10 ^ k := by
  rw [natOfDigits_eq, natOfDigits_eq, Nat.ofDigitChars_append, Nat.ofDigitChars_replicate_zero,
    Nat.mul_comm]

theorem natOfDigits_zeros_append (ds : List Char) (k : ℕ) :
    natOfDigits (List.replicate k '0' ++ ds) = natOfDigits ds := by
  rw [natOfDigits_eq, natOfDigits_eq, Nat.ofDigitChars_append, Nat.ofDigitChars_replicate_zero,
    Nat.mul_zero]

theorem isDigit_of_mem_zeros {k : ℕ} : ∀ c ∈ List.replicate k '0', c.isDigit = true := by
  intro c hc
  rw [List.eq_of_mem_replicate hc]
  decide

theorem isDigits_append_zeros (h : IsDigits ds) (k : ℕ) : IsDigits (ds ++ List.replicate k '0') :=
  ⟨by simp [h.1], List.forall_mem_append.mpr ⟨h.2, isDigit_of_mem_zeros⟩⟩

theorem isDigits_zeros_append (h : IsDigits ds) (k : ℕ) : IsDigits (List.replicate k '0' ++ ds) :=
  ⟨by simp [h.1], List.forall_mem_append.mpr ⟨isDigit_of_mem_zeros, h.2⟩⟩

theorem toDigits_eq (d : Decimal) :
    ∃ k, Nat.toDigits 10 d.significand = significantDigits d ++ List.replicate k '0' := by
  have hall : ∀ c ∈ (Nat.toDigits 10 d.significand).reverse.takeWhile (· == '0'), c = '0' :=
    fun c hc => by simpa using List.mem_takeWhile_imp hc
  have hsplit := congrArg List.reverse (@List.takeWhile_append_dropWhile _ (· == '0')
    (Nat.toDigits 10 d.significand).reverse)
  rw [List.eq_replicate_of_mem hall, List.reverse_append, List.reverse_reverse,
    List.reverse_replicate] at hsplit
  exact ⟨_, hsplit.symm⟩

theorem isDigits_significantDigits (hd : 0 < d.significand) : IsDigits (significantDigits d) := by
  obtain ⟨k, hk⟩ := toDigits_eq d
  constructor
  · intro hnil
    have hzero := natOfDigits_append_zeros [] k
    rw [← hnil, ← hk, natOfDigits_toDigits, hnil] at hzero
    exact hd.ne' (by simpa [natOfDigits] using hzero)
  · intro c hc
    have hmem : c ∈ Nat.toDigits 10 d.significand := hk ▸ List.mem_append_left _ hc
    exact Nat.isDigit_of_mem_toDigits (by decide) (by decide) hmem

theorem value_eq (d : Decimal) :
    d.value =
      natOfDigits (significantDigits d) * 10 ^ (point d - (significantDigits d).length) := by
  obtain ⟨k, hk⟩ := toDigits_eq d
  have hsignificand : d.significand = natOfDigits (significantDigits d) * 10 ^ k := by
    rw [← natOfDigits_append_zeros, ← hk, natOfDigits_toDigits]
  have hpoint : point d - (significantDigits d).length = d.exponent + k := by
    rw [point, digitCount, hk, List.length_append, List.length_replicate]
    push_cast
    ring
  have hcast : (d.significand : ℚ) = natOfDigits (significantDigits d) * 10 ^ k := by
    exact_mod_cast hsignificand
  rw [value, hcast, hpoint, zpow_add₀ (by norm_num), zpow_natCast]
  ring

theorem value_ofDigits (ds es : List Char) :
    value (ofDigits ds es 0) = natOfDigits (ds ++ es) * 10 ^ (-es.length : ℤ) := by
  rw [value, ofDigits, zero_sub]

theorem positional_eq (h : IsDigits ds) (p : ℤ) :
    ∃ ws fs, IsDigits ws ∧ IsDigits fs ∧ positional ds p = ws ++ '.' :: fs ∧
      value (ofDigits ws fs 0) = natOfDigits ds * 10 ^ (p - ds.length) := by
  unfold positional zeros
  split
  · -- The point stands before the digits.
    rename_i hp
    obtain ⟨k, hk⟩ := Int.eq_ofNat_of_zero_le (by omega : 0 ≤ -p)
    refine ⟨['0'], List.replicate k '0' ++ ds, isDigits_singleton (by decide),
      isDigits_zeros_append h k, by simp [hk], ?_⟩
    have hzeros : ['0'] ++ (List.replicate k '0' ++ ds) = List.replicate (k + 1) '0' ++ ds := rfl
    have hlength : (-(List.replicate k '0' ++ ds).length : ℤ) = p - ds.length := by
      rw [List.length_append, List.length_replicate]
      omega
    rw [value_ofDigits, hzeros, natOfDigits_zeros_append, hlength]
  · split
    · -- It stands behind them.
      rename_i hp hlength
      obtain ⟨k, hk⟩ := Int.eq_ofNat_of_zero_le (by omega : 0 ≤ p - ds.length)
      refine ⟨ds ++ List.replicate k '0', ['0'], isDigits_append_zeros h k,
        isDigits_singleton (by decide), by simp [hk], ?_⟩
      have hzeros : ds ++ List.replicate k '0' ++ ['0'] = ds ++ List.replicate (k + 1) '0' := by
        rw [List.append_assoc, List.replicate_succ']
      rw [value_ofDigits, hzeros, natOfDigits_append_zeros, hk, zpow_natCast, pow_succ,
        List.length_singleton, Nat.cast_one, zpow_neg_one]
      push_cast
      field_simp
    · -- It stands among them.
      rename_i hp hlength
      obtain ⟨k, rfl⟩ := Int.eq_ofNat_of_zero_le (by omega : 0 ≤ p)
      refine ⟨ds.take k, ds.drop k, ⟨?_, fun c hc => h.2 c (List.mem_of_mem_take hc)⟩,
        ⟨?_, fun c hc => h.2 c (List.mem_of_mem_drop hc)⟩, rfl, ?_⟩
      · have hne := h.1
        simp only [ne_eq, List.take_eq_nil_iff, hne, or_false]
        omega
      · rw [ne_eq, List.drop_eq_nil_iff]
        omega
      · have hdrop : (-(ds.drop k).length : ℤ) = k - ds.length := by
          rw [List.length_drop]
          omega
        rw [value_ofDigits, List.take_append_drop, hdrop]

/-! ### The text of a positive double -/

def IsFractionOf (x : Float) (text : String) : Prop :=
  ∃ ws fs, IsDigits ws ∧ IsDigits fs ∧ text = String.ofList (ws ++ '.' :: fs) ∧
    (ofDigits ws fs 0).toFloat = x

theorem isPositional_iff {p : ℤ} :
    (Style.standard.lowestPoint ≤ p && p ≤ Style.standard.highestPoint) = true ↔
      -3 ≤ p ∧ p ≤ 16 := by
  rw [Bool.and_eq_true, decide_eq_true_eq, decide_eq_true_eq]
  rfl

theorem isFractionOf_writePositive (hd : 0 < d.significand)
    (hp : -3 ≤ point d ∧ point d ≤ 16) : IsFractionOf d.toFloat (writePositive .standard d) := by
  obtain ⟨ws, fs, hws, hfs, htext, hvalue⟩ :=
    positional_eq (isDigits_significantDigits hd) (point d)
  rw [← value_eq] at hvalue
  refine ⟨ws, fs, hws, hfs, ?_, (toFloat_congr hd hvalue.symm).symm⟩
  rw [writePositive, ← htext]
  exact congrArg String.ofList (if_pos (isPositional_iff.mpr hp))

theorem mem_writePositive (hp : ¬(-3 ≤ point d ∧ point d ≤ 16)) :
    'e' ∈ (writePositive .standard d).toList := by
  have htext : writePositive .standard d =
      String.ofList (scientific "e" (significantDigits d) (point d)) :=
    congrArg String.ofList (if_neg (mt isPositional_iff.mp hp))
  rw [htext, String.toList_ofList, scientific]
  simp

end

/-! ### The text of a double -/

/-- The doubles that are written without an exponent. -/
def IsPlain (x : Float) : Prop :=
  magnitude x = 0 ∨ 10 ^ (-4 : ℤ) ≤ magnitude x ∧ magnitude x < 10 ^ 16

section

variable {x : Float} {text : String}

theorem IsPlain.isFinite (h : IsPlain x) : IsFinite x := by
  by_contra hx
  have hlarge := le_magnitude hx
  have hpow : (10 : ℚ) ^ 16 ≤ 2 ^ 1024 :=
    calc (10 : ℚ) ^ 16 ≤ 2 ^ 54 := by norm_num
      _ ≤ 2 ^ 1024 := by gcongr <;> norm_num
  rcases h with hzero | ⟨-, hlt⟩
  · rw [hzero] at hlarge
    exact absurd hlarge (not_le.mpr (by positivity))
  · exact absurd hlarge (not_le.mpr (lt_of_lt_of_le hlt hpow))

theorem isPlain_neg_iff (hx : IsFinite x) : IsPlain (-x) ↔ IsPlain x := by
  unfold IsPlain magnitude
  rw [(parts_neg hx).2.2]

theorem isPositive_of_magnitude (hx : IsFinite x) (hn : isNegative x = false)
    (hm : magnitude x ≠ 0) : IsPositive x :=
  ⟨hx, hn, Nat.pos_of_ne_zero (mt magnitude_eq_zero_iff.mpr hm)⟩

theorem eq_zero_of_magnitude (hn : isNegative x = false) (hm : magnitude x = 0) :
    x = Float.ofBits 0 := by
  obtain ⟨-, hs, hparts⟩ := parts_zero
  apply eq_of_magnitude (hn.trans hs.symm)
  rw [hm, eq_comm, magnitude_eq_zero_iff, hparts]

theorem toBits_ne_zero (hm : magnitude x ≠ 0) : x.toBits ≠ 0 := by
  intro hzero
  have hx : x = Float.ofBits 0 := ext_of_toBits (congrArg UInt64.toNat hzero)
  rw [hx, ne_eq, magnitude_eq_zero_iff, parts_zero.2.2] at hm
  exact hm rfl

theorem writeMagnitude_of_isPositive (hx : IsPositive x) :
    writeMagnitude .standard x = writePositive .standard (shortest x) := by
  rw [writeMagnitude, if_neg (toBits_ne_zero hx.magnitude_pos.ne'),
    if_neg (by simp [beq_infinity_of_isFinite hx.finite])]

theorem isFractionOf_writeMagnitude (hn : isNegative x = false) (h : IsPlain x) :
    IsFractionOf x (writeMagnitude .standard x) := by
  by_cases hm : magnitude x = 0
  · rw [eq_zero_of_magnitude hn hm]
    exact ⟨['0'], ['0'], isDigits_singleton (by decide), isDigits_singleton (by decide), rfl, rfl⟩
  · have hx := isPositive_of_magnitude h.isFinite hn hm
    have hread := toFloat_shortest hx
    have hpoint := (point_shortest_iff hx).mpr (h.resolve_left hm)
    have htext := isFractionOf_writePositive (significand_pos hx hread) hpoint
    rwa [hread, ← writeMagnitude_of_isPositive hx] at htext

theorem exists_letter_writeMagnitude (hn : isNegative x = false) (hnan : x.isNaN = false)
    (h : ¬ IsPlain x) : ∃ c ∈ (writeMagnitude .standard x).toList, c.isAlpha = true := by
  have hm : magnitude x ≠ 0 := fun hm => h (.inl hm)
  by_cases hfinite : IsFinite x
  · have hx := isPositive_of_magnitude hfinite hn hm
    have hpoint := mt (point_shortest_iff hx).mp fun hrange => h (.inr hrange)
    rw [writeMagnitude_of_isPositive hx]
    exact ⟨'e', mem_writePositive hpoint, by decide⟩
  · rw [eq_infinity hfinite hnan hn]
    exact ⟨'i', by decide, by decide⟩

theorem isFractionOf_ofFloat (h : IsPlain x) :
    IsFractionOf x (ofFloat x) ∨
      ∃ text, IsFractionOf (-x) text ∧ ofFloat x = "-" ++ text ∧ - -x = x := by
  have hnan := isNaN_of_isFinite h.isFinite
  cases hn : isNegative x with
  | false =>
    rw [ofFloat, hnan, hn]
    exact .inl (isFractionOf_writeMagnitude hn h)
  | true =>
    obtain ⟨-, hs, -⟩ := parts_neg h.isFinite
    have hplain := (isPlain_neg_iff h.isFinite).mpr h
    rw [hn] at hs
    rw [ofFloat, hnan, hn]
    exact .inr ⟨_, isFractionOf_writeMagnitude hs hplain, rfl, neg_neg_of_isFinite h.isFinite⟩

theorem exists_letter_ofFloat (h : ¬ IsPlain x) : ∃ c ∈ (ofFloat x).toList, c.isAlpha = true := by
  unfold ofFloat
  split
  · exact ⟨'N', by decide, by decide⟩
  · rename_i hnan
    rw [Bool.not_eq_true] at hnan
    split
    · rename_i hn
      have hletter : ∃ c ∈ (writeMagnitude .standard (-x)).toList, c.isAlpha = true := by
        by_cases hx : IsFinite x
        · obtain ⟨hfinite, hs, -⟩ := parts_neg hx
          rw [hn] at hs
          apply exists_letter_writeMagnitude hs (isNaN_of_isFinite hfinite)
          rwa [isPlain_neg_iff hx]
        · rw [neg_eq_infinity hx hnan hn]
          exact exists_letter_writeMagnitude rfl rfl fun hplain =>
            not_isFinite_infinity hplain.isFinite
      obtain ⟨c, hc, halpha⟩ := hletter
      exact ⟨c, by simp [hc], halpha⟩
    · rename_i hn
      rw [Bool.not_eq_true] at hn
      exact exists_letter_writeMagnitude hn hnan h

/-! ### Reading the text of a double -/

theorem readMagnitude?_of_isFractionOf (h : IsFractionOf x text) :
    readMagnitude? text.toList = some x := by
  obtain ⟨ws, fs, hws, hfs, rfl, rfl⟩ := h
  have hpoint (word : String) (hword : '.' ∉ word.toList) :
      String.ofList ((ws ++ '.' :: fs).map Char.toLower) ≠ word := by
    rintro rfl
    apply hword
    rw [String.toList_ofList, List.map_append, List.map_cons]
    exact List.mem_append_right _ List.mem_cons_self
  rw [String.toList_ofList, readMagnitude?]
  simp only [hpoint "inf" (by decide), hpoint "infinity" (by decide), hpoint "nan" (by decide),
    decide_false, Bool.or_self, Bool.false_eq_true, if_false,
    readUnsigned?_fraction hws hfs, Option.map_some]

theorem readFloat?_of_isFractionOf (h : IsFractionOf x text) : readFloat? text = some x := by
  have hread := readMagnitude?_of_isFractionOf h
  obtain ⟨ws, fs, hws, hfs, rfl, -⟩ := h
  obtain ⟨c, cs, hcs, hc⟩ := hws.exists_cons ('.' :: fs)
  rw [hcs, String.toList_ofList] at hread
  rw [hcs, readFloat?_eq hc, hread]

theorem readFloat?_neg (h : IsFractionOf x text) : readFloat? ("-" ++ text) = some (-x) := by
  have htext : ("-" ++ text).toList = '-' :: text.toList := by simp
  rw [readFloat?, htext]
  simp only [readMagnitude?_of_isFractionOf h, Option.map_some]

theorem IsFractionOf.isFraction (h : IsFractionOf x text) : IsFraction text.toList := by
  obtain ⟨ws, fs, hws, hfs, rfl, -⟩ := h
  exact ⟨ws, fs, hws, hfs, String.toList_ofList⟩

theorem isSigned_ofFloat (h : IsPlain x) : IsSigned IsFraction (ofFloat x).toList := by
  rcases isFractionOf_ofFloat h with htext | ⟨text, htext, heq, -⟩
  · exact ⟨_, htext.isFraction, .inl rfl⟩
  · refine ⟨_, htext.isFraction, .inr ?_⟩
    rw [heq, String.toList_append]
    rfl

/-- A double in the plain range is read back. -/
theorem readFloat?_ofFloat (h : IsPlain x) : readFloat? (ofFloat x) = some x := by
  rcases isFractionOf_ofFloat h with htext | ⟨text, htext, heq, hneg⟩
  · exact readFloat?_of_isFractionOf htext
  · rw [heq, readFloat?_neg htext, hneg]

end

end ActionGrammar.Decimal
