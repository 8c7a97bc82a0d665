import ActionGrammar.Diagnostic.Excerpt
import ActionGrammar.Proofs.GrammarText.Partition
import ActionGrammar.Proofs.GrammarText.Read

/-! # Diagnostics lie in the text

Texts are cut only between characters: into tokens, into what a token is decoded
from, and into what a diagnostic is about. So a diagnostic of grammar text can be
shown with the text, whichever characters that has and wherever reading it fails.
-/

namespace ActionGrammar

/-- Between the byte positions stands a stretch of whole characters of the text. It is not empty
unless the text ends there. -/
structure IsStretch (source : String) (start stop : Nat) : Prop where
  start_le_stop : start ≤ stop
  stop_le_size : stop ≤ source.utf8ByteSize
  isValid_start : (⟨start⟩ : String.Pos.Raw).IsValid source
  isValid_stop : (⟨stop⟩ : String.Pos.Raw).IsValid source
  nonempty : start < stop ∨ start = stop ∧ stop = source.utf8ByteSize

def StandsAt (source text : String) (start stop : Nat) : Prop :=
  ∃ before after, source = before ++ text ++ after ∧
    start = before.utf8ByteSize ∧ stop = (before ++ text).utf8ByteSize

section

variable {source text : String} {start stop : Nat}

theorem standsAt_ofList {before cs after : List Char}
    (h : source.toList = before ++ (cs ++ after)) :
    StandsAt source (String.ofList cs) (byteSize before) (byteSize before + byteSize cs) := by
  refine ⟨String.ofList before, String.ofList after, ?_, ?_, ?_⟩
  · rw [← String.toList_inj]
    simp [h]
  · rw [← byteSize_toList, String.toList_ofList]
  · rw [← byteSize_toList, String.toList_append, String.toList_ofList, String.toList_ofList,
      byteSize_append]

theorem standsAt_self (source : String) : StandsAt source source 0 source.utf8ByteSize :=
  ⟨"", "", by simp, by simp, by simp⟩

theorem StandsAt.isStretch (h : StandsAt source text start stop)
    (hne : start < stop ∨ stop = source.utf8ByteSize) : IsStretch source start stop := by
  obtain ⟨before, after, rfl, rfl, rfl⟩ := h
  have hstart : before.utf8ByteSize ≤ (before ++ text).utf8ByteSize := by simp
  constructor
  · exact hstart
  · simp
  · apply String.Pos.Raw.isValid_iff_exists_append.mpr
    exact ⟨before, text ++ after, by rw [String.append_assoc], rfl⟩
  · apply String.Pos.Raw.isValid_iff_exists_append.mpr
    exact ⟨before ++ text, after, rfl, rfl⟩
  · omega

theorem isStretch_end (source : String) :
    IsStretch source source.utf8ByteSize source.utf8ByteSize := by
  have h : StandsAt source "" source.utf8ByteSize source.utf8ByteSize :=
    ⟨source, "", by simp, rfl, by simp⟩
  exact h.isStretch (.inr rfl)

end

/-- A stretch of the text is shown as it is. -/
theorem IsStretch.shownStop {d : Diagnostic} {source : String}
    (h : IsStretch source d.start d.stop) : d.shownStop source = d.stop := by
  unfold Diagnostic.shownStop
  split
  · have := h.nonempty
    omega
  · rfl

namespace GrammarText

/-! ### Tokens and their texts -/

variable {source : String} {t : Token} {d : Diagnostic}

theorem standsAt_of_mem_lex (h : t ∈ lex source) :
    StandsAt source (t.text source) t.start t.stop := by
  obtain ⟨before, cs, after, htext, -, hstart, hstop⟩ := (tiles_lex source).exists_cut h
  rw [Nat.zero_add] at hstart
  rw [Token.text, hstop, hstart, textBetween_eq htext]
  exact standsAt_ofList htext

theorem IsLexeme.exists_quoted {cs : List Char} (h : IsLexeme .str cs) :
    ∃ body, cs = '"' :: (body ++ ['"']) := by
  have htext := h.str
  simp only [Literal.quote, String.toList_ofList] at htext
  exact ⟨_, htext.symm⟩

/-! ### What diagnostics tell -/

/-- What a diagnostic of grammar text tells, and about which stretch. -/
inductive Tells (source : String) : Diagnostic → Prop
  | unknown {text : String} {start stop : Nat} :
      StandsAt source text start stop → start < stop →
      Tells source ⟨"unknown token `" ++ text ++ "`", start, stop⟩
  | unexpected {text : String} {start stop : Nat} :
      StandsAt source text start stop → start < stop →
      Tells source ⟨"unexpected `" ++ text ++ "`", start, stop⟩
  | ending :
      Tells source ⟨"unexpected end of grammar text", source.utf8ByteSize, source.utf8ByteSize⟩
  | tooDeep :
      Tells source ⟨(ParseError.recursionLimitExceeded Limits.standard.recursion).message, 0,
        source.utf8ByteSize⟩

theorem Tells.isStretch (h : Tells source d) : IsStretch source d.start d.stop := by
  cases h with
  | unknown h hlt | unexpected h hlt => exact h.isStretch (.inl hlt)
  | ending => exact isStretch_end source
  | tooDeep => exact (standsAt_self source).isStretch (.inr rfl)

theorem tells_unknownToken (h : t ∈ lex source) : Tells source (unknownToken source t) :=
  .unknown (standsAt_of_mem_lex h) ((tiles_lex source).start_lt_stop h)

theorem tells_unexpected (source : String) (furthest : Nat) :
    Tells source (unexpected source (lex source) furthest) := by
  unfold unexpected
  split
  · rename_i t ht
    have h : t ∈ lex source := List.mem_of_getElem? ht
    exact .unexpected (standsAt_of_mem_lex h) ((tiles_lex source).start_lt_stop h)
  · exact .ending

theorem tells_of_read {types : PartTypes} (h : read types source = .error (.malformed d)) :
    Tells source d := by
  have hfits : ∀ x ∈ (lex source).toArray.toList, x.Fits := fun x hx => fits_of_mem_lex hx
  unfold read at h
  rw [parser_eq_ok] at h
  dsimp only at h
  split at h
  · rename_i x hx
    cases h
    exact tells_unknownToken (List.mem_of_find?_eq_some hx)
  · split at h
    · rename_i e t hrun
      cases h
      rcases parse_failure rfl hfits hrun with ⟨-, ⟨i, rfl⟩ | ⟨i, j, rfl⟩⟩ | ⟨n, hn, -⟩ | rfl
      · exact tells_unexpected source i
      · exact tells_unexpected source j
      · exact nomatch hn
      · exact .tooDeep
    · split at h <;> cases h

/-- Strings and references are decoded from within their delimiters, and tokens stand in the text
as they are quoted. Then a text is read, or a diagnostic tells what it quotes from there, and it is
about a stretch of whole characters, which is also the one that is shown. -/
theorem read_lies_inside (types : PartTypes) (source : String) :
    (∀ s ∈ slices source.toList,
      (s.kind = some .str → ∃ body, s.chars = '"' :: (body ++ ['"'])) ∧
      (s.kind = some .result → ∃ digits, s.chars = '$' :: digits)) ∧
    (∀ t ∈ lex source, StandsAt source (t.text source) t.start t.stop) ∧
    ((∃ g, read types source = .ok g) ∨
      ∃ d, read types source = .error (.malformed d) ∧ Tells source d ∧
        IsStretch source d.start d.stop ∧ IsStretch source d.start (d.shownStop source)) := by
  refine ⟨fun s hs => ?_, fun t ht => standsAt_of_mem_lex ht, ?_⟩
  · constructor
    · intro hk
      exact (isLexeme_of_mem_slices hs hk).exists_quoted
    · intro hk
      obtain ⟨digits, -, h⟩ := isLexeme_result_iff.mp (isLexeme_of_mem_slices hs hk)
      exact ⟨digits, h⟩
  · rcases read_outcome types source with ⟨g, hg, -⟩ | ⟨⟨d, hd⟩, -⟩
    · exact .inl ⟨g, hg⟩
    · have h := tells_of_read hd
      refine .inr ⟨d, hd, h, h.isStretch, ?_⟩
      rw [h.isStretch.shownStop]
      exact h.isStretch

/-- A letter of two bytes that no token has. -/
theorem read_lies_inside_accent :
    read sampleTypes "S: é" = .error (.malformed ⟨"unknown token `é`", 3, 5⟩) ∧
    IsStretch "S: é" 3 5 := by
  have hlex : lex "S: é" =
      [⟨.symbol, 0, 1, some (.str "S")⟩, ⟨.colon, 1, 2, none⟩, .garbage 3 5] := by decide +kernel
  have hread : read sampleTypes "S: é" = .error (.malformed ⟨"unknown token `é`", 3, 5⟩) := by
    unfold read
    rw [parser_eq_ok]
    simp only [hlex]
    rfl
  obtain ⟨-, -, ⟨g, hg⟩ | ⟨d, hd, -, hin, -⟩⟩ := read_lies_inside sampleTypes "S: é"
  · exact nomatch hread.symm.trans hg
  · cases hread.symm.trans hd
    exact ⟨hread, hin⟩

end GrammarText

end ActionGrammar
