import ActionGrammar.Proofs.GrammarText.Spelling

/-! # Strings are printed as they were written

A backslash in a string takes the next character along, so every quote inside of the
string has been escaped, and none of the backslashes is left alone at the end.
-/

namespace ActionGrammar.GrammarText

/-- Undoes the escapes of quotes, with no result where a backslash is left alone at the end. -/
def unescape? : List Char → Option (List Char)
  | [] => some []
  | '\\' :: [] => none
  | '\\' :: '"' :: cs => (unescape? cs).map ('"' :: ·)
  | '\\' :: c :: cs => (unescape? cs).map ('\\' :: c :: ·)
  | c :: cs => (unescape? cs).map (c :: ·)

theorem IsQuotable.unescape?_eq {body : List Char} (h : IsQuotable body) :
    unescape? body = some (unescape body) := by
  induction h with
  | nil => rfl
  | @plain c cs _ hb _ ih =>
    have hpartial : unescape? (c :: cs) = (unescape? cs).map (c :: ·) := by
      rw [unescape?.eq_5] <;> grind
    rw [hpartial, unescape_plain hb, ih]
    rfl
  | @escaped c cs _ _ ih =>
    by_cases hq : c = '"'
    · subst hq
      rw [unescape?, unescape, ih]
      rfl
    · rw [unescape?.eq_4 c cs hq, unescape.eq_3 c cs hq, ih]
      rfl

theorem lex_lexeme {k : Kind} {text : String} {payload : Option Literal}
    (h : IsLexeme k text.toList) (hb : k ≠ .blank)
    (hd : decode? k text.toList = some (k, payload)) :
    lex text = [⟨k, 0, text.utf8ByteSize, payload⟩] := by
  obtain ⟨p, hrun, hp⟩ := h
  have hlex := lexFrom_append hrun hp hb hd 0 [] fun c hc => nomatch hc
  rw [List.append_nil, ← lex_eq, byteSize_toList, Nat.zero_add] at hlex
  rw [hlex]
  rfl

/-- A string in a text is quotable between its quotes, and it is printed as it stands there. Read
alone, what is printed is the same string. -/
theorem lex_string_verbatim {source : String} {t : Token} (h : t ∈ lex source)
    (hk : t.kind = .str) :
    ∃ body, IsQuotable body ∧ t.text source = String.ofList ('"' :: (body ++ ['"'])) ∧
      unescape? body = some (unescape body) ∧
      ∃ l, t.payload = some l ∧ l = .str (String.ofList (unescape body)) ∧
        l.text = t.text source ∧ lex l.text = [⟨.str, 0, l.text.utf8ByteSize, some l⟩] := by
  obtain ⟨k, hl, hd⟩ := exists_text_of_mem_lex h (by simp [hk])
  rw [hk] at hd
  obtain rfl : k = .str := by simpa [eq_comm] using kind_of_decode? hd
  obtain ⟨body, hbody, htext⟩ := isLexeme_str_iff.mp hl
  have hpayload : t.payload = some (.str (String.ofList (unescape body))) := by
    rw [htext, decode?, inner_quoted] at hd
    exact (congrArg Prod.snd (Option.some.inj hd)).symm
  have hprint : Literal.text (.str (String.ofList (unescape body))) = t.text source := by
    rw [← String.toList_inj, htext]
    simp [Literal.text, Literal.quote, hbody.escapeQuotes_unescape]
  refine ⟨body, hbody, by rw [← htext, String.ofList_toList], hbody.unescape?_eq, _, hpayload, rfl,
    hprint, ?_⟩
  rw [hprint, ← hpayload]
  exact lex_lexeme hl (by decide) hd

def escapedText : String := "A : \"a\\\\\\\"b\\n\\\\\" ;"

def escapedString : String := "a\\\\\"b\\n\\\\"

def escapedToken : Token := ⟨.str, 4, 16, some (.str escapedString)⟩

/-- The pair of backslashes is kept on either side, and the quote is escaped in the text alone. -/
theorem lex_string_verbatim_escapedText :
    escapedToken ∈ lex escapedText ∧
    Literal.text (.str escapedString) = escapedToken.text escapedText ∧
    lex (Literal.text (.str escapedString)) = [⟨.str, 0, 12, some (.str escapedString)⟩] := by
  have hmem : escapedToken ∈ lex escapedText := by decide +kernel
  obtain ⟨body, -, -, -, l, hl, -, htext, hlex⟩ := lex_string_verbatim hmem rfl
  obtain rfl : .str escapedString = l := Option.some.inj hl
  have hsize : (Literal.text (.str escapedString)).utf8ByteSize = 12 := by decide +kernel
  exact ⟨hmem, htext, hsize ▸ hlex⟩

end ActionGrammar.GrammarText
