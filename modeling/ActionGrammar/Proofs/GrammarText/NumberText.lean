import ActionGrammar.Proofs.Decimal.Notation
import ActionGrammar.Proofs.GrammarText.Partition
import ActionGrammar.Proofs.GrammarText.Unexpected
import ActionGrammar.Proofs.GrammarText.Verbatim

/-! # Numbers are printed and read again

Integers and references to results are printed as numbers that stand for them. Doubles are,
too, unless they are so large or so small that they are printed with an exponent: no number
in grammar text has one.
-/

namespace ActionGrammar.GrammarText

open Progress

open Decimal (IsPlain ofFloat)

/-! ### No number has a letter -/

section

variable {cs ds : List Char}

def IsNumeric (c : Char) : Prop := c.isDigit = true ∨ c = '-' ∨ c = '.'

theorem IsSigned.isNumeric {unsigned : List Char → Prop} (h : IsSigned unsigned cs)
    (hunsigned : ∀ ds, unsigned ds → ∀ c ∈ ds, IsNumeric c) : ∀ c ∈ cs, IsNumeric c := by
  obtain ⟨ds, hds, rfl | rfl⟩ := h
  · exact hunsigned _ hds
  · exact List.forall_mem_cons.mpr ⟨.inr (.inl rfl), hunsigned _ hds⟩

theorem IsDigits.isNumeric (h : IsDigits ds) : ∀ c ∈ ds, IsNumeric c := fun c hc => .inl (h.2 c hc)

theorem IsFraction.isNumeric (h : IsFraction ds) : ∀ c ∈ ds, IsNumeric c := by
  obtain ⟨ds, es, hds, hes, rfl⟩ := h
  exact List.forall_mem_append.mpr
    ⟨hds.isNumeric, List.forall_mem_cons.mpr ⟨.inr (.inr rfl), hes.isNumeric⟩⟩

theorem isNumeric_of_decode? {k : Kind} {payload : Option Literal} (hl : IsLexeme k cs)
    (hd : decode? k cs = some (.double, payload)) : ∀ c ∈ cs, IsNumeric c := by
  rcases kind_of_decode? hd with rfl | ⟨-, hk | hk⟩ | ⟨rfl, -⟩
  · exact (isLexeme_double_iff.mp hl).isNumeric fun ds => IsFraction.isNumeric
  · cases hk
  · cases hk
  · exact (isLexeme_int_iff.mp hl).isNumeric fun ds => IsDigits.isNumeric

theorem not_isAlpha_of_isBlank {c : Char} (h : isBlank c = true) : ¬ c.isAlpha = true := by
  have hblank : c = ' ' ∨ c = '\t' ∨ c = '\r' ∨ c = '\n' ∨ c = '\x0c' := by
    simpa [isBlank, or_assoc] using h
  rcases hblank with rfl | rfl | rfl | rfl | rfl <;> decide

theorem IsNumeric.not_isAlpha {c : Char} (h : IsNumeric c) : ¬ c.isAlpha = true := by
  rcases h with h | rfl | rfl
  · simp only [Char.isDigit, Char.isAlpha, Char.isUpper, Char.isLower] at h ⊢
    grind
  · decide
  · decide

theorem not_isAlpha_of_lex {text : String} {t : Token} (hlex : lex text = [t])
    (hk : t.kind = .double) : ∀ c ∈ text.toList, ¬ c.isAlpha = true := by
  have htiles := tiles_lex text
  obtain ⟨k, hl, hd⟩ := exists_text_of_mem_lex (hlex ▸ List.mem_singleton_self t) (by simp [hk])
  rw [hk] at hd
  have hnumeric := isNumeric_of_decode? hl hd
  rw [hlex] at htiles
  generalize htext : text.toList = chars at htiles
  cases htiles with
  | @token _ gap cs rest _ _ hgap _ hstart hstop hrest =>
    have htoken : t.text text = String.ofList cs := by
      rw [Token.text, hstop, hstart, Nat.zero_add]
      exact textBetween_eq htext
    rw [htoken, String.toList_ofList] at hnumeric
    cases hrest with
    | gap hrest =>
      refine List.forall_mem_append.mpr ⟨fun c hc => not_isAlpha_of_isBlank (hgap c hc),
        List.forall_mem_append.mpr ⟨fun c hc => (hnumeric c hc).not_isAlpha, ?_⟩⟩
      exact fun c hc => not_isAlpha_of_isBlank (hrest c hc)

end

/-! ### Numbers in any text -/

/-- What is printed for a double is a double again, and then the same one, exactly if it is in the
plain range. -/
theorem map_content_ofFloat_iff {x : Float} :
    (lex (ofFloat x)).map Token.content = [(.double, some (.double x))] ↔ IsPlain x := by
  constructor
  · intro hlex
    by_contra hplain
    obtain ⟨c, hc, halpha⟩ := Decimal.exists_letter_ofFloat hplain
    obtain ⟨t, hlex, ht⟩ := List.map_eq_singleton_iff.mp hlex
    exact not_isAlpha_of_lex hlex (Prod.mk.inj ht).1 c hc halpha
  · intro hplain
    have hl := isLexeme_double_iff.mpr (Decimal.isSigned_ofFloat hplain)
    have hd : decode? .double (ofFloat x).toList = some (.double, some (.double x)) := by
      rw [decode?, String.ofList_toList, Decimal.readFloat?_ofFloat hplain]
      rfl
    rw [lex_lexeme hl (by decide) hd]
    rfl

/-- Whatever text a number comes from, what is printed for it is read as the same number if it is an
integer or a reference to a result. If it is a double, that is so exactly from `10 ^ (-4)` up to
below `10 ^ 16`, and for the zeros. -/
theorem lex_number_reads_back {source : String} {t : Token} (ht : t ∈ lex source) :
    (t.kind = .int → ∃ n, t.payload = some (.int n) ∧
      (lex (Literal.text (.int n))).map Token.content = [t.content]) ∧
    (t.kind = .result → ∃ (n : Int64) (i : ℕ), t.payload = some (.int n) ∧ n.toInt = i ∧
      (lex (Template.text (.result i))).map Token.content = [t.content]) ∧
    (t.kind = .double → ∃ x, t.payload = some (.double x) ∧
      ((lex (Literal.text (.double x))).map Token.content = [t.content] ↔ IsPlain x)) := by
  have hfits := fits_of_mem_lex ht
  obtain ⟨kind, start, stop, payload⟩ := t
  refine ⟨?_, ?_, ?_⟩
  · rintro rfl
    obtain ⟨n, rfl⟩ : ∃ n, payload = some (.int n) := hfits
    obtain ⟨hl, hd⟩ := isLexeme_int n
    refine ⟨n, rfl, ?_⟩
    rw [Literal.text, lex_lexeme hl (by decide) hd]
    rfl
  · rintro rfl
    obtain ⟨n, i, rfl, hi⟩ := hfits.exists_result rfl
    obtain ⟨hl, hd⟩ := isLexeme_result hi
    refine ⟨n, i, rfl, hi, ?_⟩
    have htext : Template.text (.result i) = "$" ++ toString i := rfl
    rw [htext, lex_lexeme hl (by decide) hd]
    rfl
  · rintro rfl
    obtain ⟨x, rfl⟩ : ∃ x, payload = some (.double x) := hfits
    exact ⟨x, rfl, map_content_ofFloat_iff⟩

/-- Numbers with needless zeros, the last of which is the least double of the plain range. -/
def paddedText : String := "-007 $02 00.00010"

def paddedDouble : Float := Float.ofBits 0x3F1A36E2EB1C432D

def paddedTokens : List Token :=
  [⟨.int, 0, 4, some (.int (-7))⟩, ⟨.result, 5, 8, some (.int 2)⟩,
    ⟨.double, 9, 17, some (.double paddedDouble)⟩]

/-- The zeros are left out in what is printed. -/
theorem lex_number_reads_back_padded :
    lex paddedText = paddedTokens ∧
    (lex "-7").map Token.content = [(.int, some (.int (-7)))] ∧
    (lex "$2").map Token.content = [(.result, some (.int 2))] ∧
    (lex "0.0001").map Token.content = [(.double, some (.double paddedDouble))] := by
  have hlex : lex paddedText = paddedTokens := rfl
  have hmem {t : Token} (ht : t ∈ paddedTokens) : t ∈ lex paddedText := hlex ▸ ht
  refine ⟨hlex, ?_, ?_, ?_⟩
  · obtain ⟨n, hn, hread⟩ := (lex_number_reads_back
      (hmem (by simp [paddedTokens] : ⟨.int, 0, 4, some (.int (-7))⟩ ∈ paddedTokens))).1 rfl
    cases hn
    exact hread
  · obtain ⟨n, i, hn, hi, hread⟩ := (lex_number_reads_back
      (hmem (by simp [paddedTokens] : ⟨.result, 5, 8, some (.int 2)⟩ ∈ paddedTokens))).2.1 rfl
    cases hn
    have htwo : Int64.toInt 2 = 2 := by decide
    obtain rfl : i = 2 := by omega
    exact hread
  · obtain ⟨x, hx, hread⟩ := (lex_number_reads_back
      (hmem (by simp [paddedTokens] : ⟨.double, 9, 17, some (.double paddedDouble)⟩ ∈
        paddedTokens))).2.2 rfl
    cases hx
    have hparts : Decimal.binaryParts paddedDouble = (7378697629483821, -66) := rfl
    have htext : Literal.text (.double paddedDouble) = "0.0001" := rfl
    rw [htext] at hread
    refine hread.mpr (.inr ?_)
    rw [Decimal.magnitude, hparts]
    norm_num

def tinyDouble : Float := Float.ofBits 0x3EE4F8B588E368F1

/-- A smaller double is printed with an exponent, and only its first digit is read as a number. -/
theorem number_unread :
    lex "0.00001" = [⟨.double, 0, 7, some (.double tinyDouble)⟩] ∧
    Literal.text (.double tinyDouble) = "1e-5" ∧
    (lex "1e-5").map Token.content =
      [(.int, some (.int 1)), (.symbol, some (.str "e")), (.int, some (.int (-5)))] ∧
    ¬ ∀ (source : String), ∀ t ∈ lex source, ∀ x, t.kind = .double → t.payload = some (.double x) →
      (lex (Literal.text (.double x))).map Token.content = [t.content] := by
  have hlex : lex "0.00001" = [⟨.double, 0, 7, some (.double tinyDouble)⟩] := rfl
  have htext : Literal.text (.double tinyDouble) = "1e-5" := rfl
  have hread : (lex "1e-5").map Token.content =
      [(.int, some (.int 1)), (.symbol, some (.str "e")), (.int, some (.int (-5)))] := rfl
  refine ⟨hlex, htext, hread, fun h => ?_⟩
  have hone := h "0.00001" _ (hlex ▸ List.mem_singleton_self _) tinyDouble rfl rfl
  rw [htext, hread] at hone
  cases (List.cons.inj hone).1

end ActionGrammar.GrammarText
