import ActionGrammar.Proofs.GrammarText.Number
import ActionGrammar.Proofs.GrammarText.Partition

/-! # Malformed slices

A slice of a text is malformed if nothing is recognized there, or if it refers to a
result with a number that does not fit. Garbage begins at a malformed slice, and it
goes on for as long as nothing is recognized.
-/

namespace ActionGrammar.GrammarText

/-- The slice refers to a result with a number that does not fit. -/
def Slice.IsMisfit (s : Slice) : Prop :=
  ∃ ds, IsDigits ds ∧ 2 ^ 63 ≤ Decimal.natOfDigits ds ∧ s = ⟨some .result, '$' :: ds⟩

/-- The slice is not recognized, or what is recognized cannot be decoded. -/
def Slice.IsMalformed (s : Slice) : Prop := ∀ k, s.kind = some k → decode? k s.chars = none

theorem toInt64?_natCast_eq_none_iff {n : Nat} : toInt64? n = none ↔ 2 ^ 63 ≤ n := by
  have hmin : Int64.minValue.toInt = -2 ^ 63 := rfl
  have hmax : Int64.maxValue.toInt = 2 ^ 63 - 1 := rfl
  simp only [toInt64?, hmin, hmax, Bool.and_eq_true, decide_eq_true_eq]
  split
  · simp only [reduceCtorEq, false_iff]
    omega
  · simp only [true_iff]
    omega

theorem decode?_result {ds : List Char} (h : IsDigits ds) :
    decode? .result ('$' :: ds) = none ↔ 2 ^ 63 ≤ Decimal.natOfDigits ds := by
  rw [decode?, List.drop_one, List.tail_cons, readInt_digits h.2, Option.map_eq_none_iff,
    toInt64?_natCast_eq_none_iff]

namespace Slice

variable {s : Slice} {cs : List Char}

theorem IsMisfit.kind (h : s.IsMisfit) : s.kind = some .result := by
  obtain ⟨ds, -, -, rfl⟩ := h
  rfl

theorem IsMisfit.isMalformed (h : s.IsMisfit) : s.IsMalformed := by
  obtain ⟨ds, hds, hle, rfl⟩ := h
  rintro _ ⟨⟩
  exact (decode?_result hds).mpr hle

theorem isMalformed_of_kind_eq_none (h : s.kind = none) : s.IsMalformed := by
  intro k hk
  exact nomatch h.symm.trans hk

theorem isMalformed_iff (h : s ∈ slices cs) : s.IsMalformed ↔ s.kind = none ∨ s.IsMisfit := by
  constructor
  · intro hs
    cases hk : s.kind with
    | none => exact .inl rfl
    | some k =>
      have hl : IsLexeme k s.chars := isLexeme_of_mem_slices h hk
      have hd : decode? k s.chars = none := hs k hk
      have hr : k = .result := by
        by_contra hr
        simpa [hd] using decode?_isSome hl hr
      subst hr
      obtain ⟨ds, hds, hchars⟩ := isLexeme_result_iff.mp hl
      rw [hchars, decode?_result hds] at hd
      exact .inr ⟨ds, hds, hd, by rw [← hk, ← hchars]⟩
  · rintro (hs | hs)
    · exact isMalformed_of_kind_eq_none hs
    · exact hs.isMalformed

end Slice

/-! ### Tokens that are decoded -/

theorem not_isLexeme_garbage {cs : List Char} : ¬ IsLexeme .garbage cs := by
  rw [isLexeme_iff]
  exact fun h => Language.notMem_zero cs h.2

theorem decode?_ne_garbage {k k' : Kind} {cs : List Char} {payload : Option Literal}
    (h : IsLexeme k cs) (hd : decode? k cs = some (k', payload)) : k' ≠ .garbage := by
  rintro rfl
  obtain rfl : k = .garbage := by simpa [eq_comm] using kind_of_decode? hd
  exact not_isLexeme_garbage h

end ActionGrammar.GrammarText
