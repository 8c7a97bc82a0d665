import ActionGrammar.Proofs.GrammarText.Spelling
import Mathlib.Data.List.TakeWhile

/-! # Numbers

A number is spelled with digits, which may have a sign in front and a point among
them. Every such number is read as a double, however long it is, so that only the
number of a result may be too large.
-/

namespace ActionGrammar.GrammarText

open Progress

def IsDigits (cs : List Char) : Prop := cs ≠ [] ∧ ∀ c ∈ cs, c.isDigit = true

def IsFraction (cs : List Char) : Prop :=
  ∃ ds es, IsDigits ds ∧ IsDigits es ∧ cs = ds ++ '.' :: es

def IsSigned (unsigned : List Char → Prop) (cs : List Char) : Prop :=
  ∃ ds, unsigned ds ∧ (cs = ds ∨ cs = '-' :: ds)

theorem isDigits_singleton {c : Char} (h : c.isDigit = true) : IsDigits [c] :=
  ⟨List.cons_ne_nil c [], List.forall_mem_singleton.mpr h⟩

theorem IsDigits.exists_cons {ds : List Char} (h : IsDigits ds) (rest : List Char) :
    ∃ c cs, ds ++ rest = c :: cs ∧ c.isDigit = true := by
  obtain ⟨c, ds, rfl⟩ := List.exists_cons_of_ne_nil h.1
  exact ⟨c, ds ++ rest, rfl, h.2 c List.mem_cons_self⟩

/-! ### How numbers are spelled -/

section

variable {cs : List Char}

theorem mem_signed_iff {L : Pattern} {unsigned : List Char → Prop}
    (hL : ∀ ds, ds ∈ L ↔ unsigned ds) :
    cs ∈ (1 + letter (· == '-')) * L ↔ IsSigned unsigned cs := by
  rw [mem_signed, mem_letter_mul]
  constructor
  · rintro (h | ⟨c, ds, hc, hds, rfl⟩)
    · exact ⟨cs, (hL cs).mp h, .inl rfl⟩
    · obtain rfl := beq_iff_eq.mp hc
      exact ⟨ds, (hL ds).mp hds, .inr rfl⟩
  · rintro ⟨ds, hds, rfl | rfl⟩
    · exact .inl ((hL _).mpr hds)
    · exact .inr ⟨'-', ds, rfl, (hL ds).mpr hds, rfl⟩

theorem mem_fraction (cs : List Char) :
    cs ∈ number * (letter (· == '.') * number) ↔ IsFraction cs := by
  rw [Language.mem_mul]
  constructor
  · rintro ⟨ds, hds, _, hpoint, rfl⟩
    obtain ⟨c, es, hc, hes, rfl⟩ := mem_letter_mul.mp hpoint
    obtain rfl := beq_iff_eq.mp hc
    exact ⟨ds, es, mem_number.mp hds, mem_number.mp hes, rfl⟩
  · rintro ⟨ds, es, hds, hes, rfl⟩
    exact ⟨ds, mem_number.mpr hds, '.' :: es,
      mem_letter_mul.mpr ⟨'.', es, rfl, mem_number.mpr hes, rfl⟩, rfl⟩

theorem isLexeme_int_iff : IsLexeme .int cs ↔ IsSigned IsDigits cs := by
  rw [isLexeme_iff, Kind.pattern, mem_signed_iff fun _ => mem_number]
  exact and_iff_right rfl

theorem isLexeme_double_iff : IsLexeme .double cs ↔ IsSigned IsFraction cs := by
  rw [isLexeme_iff, Kind.pattern, mem_signed_iff mem_fraction]
  exact and_iff_right rfl

end

/-! ### How numbers are read -/

open Decimal

section

variable {cs ds es : List Char}

theorem readUnsigned?_digits (h : IsDigits ds) : readUnsigned? ds = some (ofDigits ds [] 0) := by
  have htake : ds.takeWhile Char.isDigit = ds := List.takeWhile_eq_self_iff.mpr h.2
  have hdrop : ds.dropWhile Char.isDigit = [] := List.dropWhile_eq_nil_iff.mpr h.2
  simp [readUnsigned?, htake, hdrop, h.1]

theorem readUnsigned?_fraction (hds : IsDigits ds) (hes : IsDigits es) :
    readUnsigned? (ds ++ '.' :: es) = some (ofDigits ds es 0) := by
  have htake : (ds ++ '.' :: es).takeWhile Char.isDigit = ds := by
    rw [List.takeWhile_append_of_pos hds.2, List.takeWhile_cons_of_neg (by decide), List.append_nil]
  have hdrop : (ds ++ '.' :: es).dropWhile Char.isDigit = '.' :: es := by
    rw [List.dropWhile_append_of_pos hds.2, List.dropWhile_cons_of_neg (by decide)]
  have htake' : es.takeWhile Char.isDigit = es := List.takeWhile_eq_self_iff.mpr hes.2
  have hdrop' : es.dropWhile Char.isDigit = [] := List.dropWhile_eq_nil_iff.mpr hes.2
  simp [readUnsigned?, htake, hdrop, htake', hdrop', hds.1]

theorem readMagnitude?_isSome (h : (readUnsigned? cs).isSome) : (readMagnitude? cs).isSome := by
  unfold readMagnitude?
  dsimp only
  split
  · rfl
  · split
    · rfl
    · rwa [Option.isSome_map]

theorem readFloat?_eq {c : Char} (hc : c.isDigit = true) (cs : List Char) :
    readFloat? (String.ofList (c :: cs)) = readMagnitude? (c :: cs) := by
  rw [readFloat?, String.toList_ofList]
  split
  · rename_i heq
    obtain ⟨rfl, -⟩ := List.cons.inj heq
    exact absurd hc (by decide)
  · rename_i heq
    obtain ⟨rfl, -⟩ := List.cons.inj heq
    exact absurd hc (by decide)
  · rfl

theorem readFloat?_isSome {unsigned : List Char → Prop} (h : IsSigned unsigned cs)
    (hread : ∀ ds, unsigned ds →
      (readUnsigned? ds).isSome ∧ ∃ c rest, ds = c :: rest ∧ c.isDigit = true) :
    (readFloat? (String.ofList cs)).isSome := by
  obtain ⟨ds, hds, hcs⟩ := h
  obtain ⟨hsome, c, rest, rfl, hc⟩ := hread ds hds
  have hsome := readMagnitude?_isSome hsome
  rcases hcs with rfl | rfl
  · rwa [readFloat?_eq hc]
  · simpa [readFloat?] using hsome

end

theorem decode?_isSome {k : Kind} {cs : List Char} (h : IsLexeme k cs) (hk : k ≠ .result) :
    (decode? k cs).isSome := by
  cases k with
  | result => exact absurd rfl hk
  | symbol =>
    simp only [decode?]
    split
    · rfl
    · split <;> rfl
  | int =>
    simp only [decode?]
    split
    · rfl
    · rw [Option.isSome_map]
      apply readFloat?_isSome (isLexeme_int_iff.mp h)
      intro ds hds
      constructor
      · rw [readUnsigned?_digits hds]
        rfl
      · simpa using hds.exists_cons []
  | double =>
    rw [decode?, Option.isSome_map]
    apply readFloat?_isSome (isLexeme_double_iff.mp h)
    rintro _ ⟨ds, es, hds, hes, rfl⟩
    constructor
    · rw [readUnsigned?_fraction hds hes]
      rfl
    · exact hds.exists_cons _
  | _ => rfl

end ActionGrammar.GrammarText
