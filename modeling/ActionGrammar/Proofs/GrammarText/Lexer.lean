import ActionGrammar.Proofs.GrammarText.Notation
import ActionGrammar.Proofs.GrammarText.Spelling

/-! # Literals of tokens

Every token of a text carries the literal that its kind promises. In particular,
the index of a result is not negative, because a digit comes after the dollar sign.
-/

namespace ActionGrammar.GrammarText

theorem fits_of_decode? {k k' : Kind} {cs : List Char} {payload : Option Literal}
    {start stop : Nat} (hl : IsLexeme k cs) (h : decode? k cs = some (k', payload)) :
    Token.Fits ⟨k', start, stop, payload⟩ := by
  cases k with
  | symbol =>
    simp only [decode?] at h
    split at h
    · cases h
      trivial
    · split at h <;> cases h
      · trivial
      · exact ⟨_, rfl⟩
  | str =>
    cases h
    exact ⟨_, rfl⟩
  | int =>
    simp only [decode?] at h
    split at h
    · cases h
      exact ⟨_, rfl⟩
    · obtain ⟨x, -, hx⟩ := Option.map_eq_some_iff.mp h
      cases hx
      exact ⟨_, rfl⟩
  | double =>
    obtain ⟨x, -, hx⟩ := Option.map_eq_some_iff.mp h
    cases hx
    exact ⟨_, rfl⟩
  | result =>
    obtain ⟨n, hn, hx⟩ := Option.map_eq_some_iff.mp h
    cases hx
    obtain ⟨ds, ⟨-, hds⟩, rfl⟩ := isLexeme_result_iff.mp hl
    have hread := toInt_of_toInt64? hn
    rw [List.drop_one, List.tail_cons, readInt_digits hds] at hread
    exact ⟨n, _, rfl, hread⟩
  | _ =>
    cases h
    trivial

theorem fits_of_mem_lex {t : Token} {source : String} (h : t ∈ lex source) : t.Fits := by
  by_cases hg : t.kind = .garbage
  · rw [Token.Fits, hg]
    trivial
  · obtain ⟨k, cs, hl, hd⟩ := exists_lexeme_of_mem_lex h hg
    exact fits_of_decode? hl hd

end ActionGrammar.GrammarText
