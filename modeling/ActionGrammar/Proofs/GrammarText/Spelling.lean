import ActionGrammar.Grammar.Dump
import ActionGrammar.Proofs.GrammarText.LongestMatch

/-! # The spelling of lexemes

Symbols are identifiers or quoted characters, references to results are numbers
behind a dollar sign, and a text between quotes is spelled in one way. Names,
numbers and texts are thus printed as lexemes that stand for them.
-/

namespace ActionGrammar.GrammarText

open Progress
open scoped Computability

/-! ### What lexemes look like -/

theorem mark?_ne {c : Char} {k : Kind} (h : mark? c = some k) :
    k ∉ [Kind.symbol, .str, .int, .double, .result, .blank] := by
  unfold mark? at h
  split at h <;> cases h <;> decide

theorem isLexeme_symbol_iff {cs : List Char} : IsLexeme .symbol cs ↔
    DottedName.isIdentifier cs = true ∨ ∃ c, c ≠ '\'' ∧ cs = ['\'', c, '\''] := by
  have hword : cs ∈ letter isWordStart * (letter isWordChar)∗ ↔
      DottedName.isIdentifier cs = true := by
    cases cs with
    | nil => simp [DottedName.isIdentifier]
    | cons c cs =>
      rw [cons_mem_letter_mul, mem_kstar_letter, DottedName.isIdentifier, Bool.and_eq_true,
        List.all_eq_true]
      rfl
  rw [isLexeme_iff, Kind.pattern, Language.mem_add, hword]
  simp [mem_letter_mul, Kind.isKeyword]

theorem isLexeme_result_iff {cs : List Char} : IsLexeme .result cs ↔
    ∃ ds, (ds ≠ [] ∧ ∀ d ∈ ds, d.isDigit = true) ∧ cs = '$' :: ds := by
  rw [isLexeme_iff, Kind.pattern, mem_letter_mul]
  simp [mem_number, Kind.isKeyword]

/-- A slice is decoded to a token of its own kind, except for keywords and long integers. -/
theorem kind_of_decode? {k k' : Kind} {cs : List Char} {payload : Option Literal}
    (h : decode? k cs = some (k', payload)) :
    k' = k ∨ (k = .symbol ∧ (k' = .new ∨ k' = .static)) ∨ (k = .int ∧ k' = .double) := by
  cases k with
  | symbol =>
    simp only [decode?] at h
    split at h
    · cases h
      exact .inr (.inl ⟨rfl, .inl rfl⟩)
    · split at h
      · cases h
        exact .inr (.inl ⟨rfl, .inr rfl⟩)
      · cases h
        exact .inl rfl
  | int =>
    simp only [decode?] at h
    split at h
    · cases h
      exact .inl rfl
    · obtain ⟨x, -, hx⟩ := Option.map_eq_some_iff.mp h
      cases hx
      exact .inr (.inr ⟨rfl, rfl⟩)
  | double | result =>
    obtain ⟨x, -, hx⟩ := Option.map_eq_some_iff.mp h
    cases hx
    exact .inl rfl
  | _ =>
    cases h
    exact .inl rfl

/-! ### Texts between quotes -/

/-- What may stand between quotes: a backslash takes a character along, but not a newline, and the
other characters are neither quotes nor backslashes. -/
inductive IsQuotable : List Char → Prop
  | nil : IsQuotable []
  | plain {c : Char} {cs : List Char} : c ≠ '"' → c ≠ '\\' → IsQuotable cs → IsQuotable (c :: cs)
  | escaped {c : Char} {cs : List Char} : c ≠ '\n' → IsQuotable cs → IsQuotable ('\\' :: c :: cs)

namespace IsQuotable

variable {c : Char} {cs body : List Char}

theorem unescape_plain (hb : c ≠ '\\') : unescape (c :: cs) = c :: unescape cs :=
  unescape.eq_4 c cs (fun _ h _ => hb h) fun _ _ h _ => hb h

theorem escapeQuotes_unescape (h : IsQuotable body) :
    Literal.escapeQuotes (unescape body) = body := by
  induction h with
  | nil => rfl
  | plain hq hb _ ih => simp [unescape_plain hb, Literal.escapeQuotes, hq, ih]
  | @escaped c cs _ _ ih =>
    by_cases hq : c = '"'
    · subst hq
      simp [unescape, Literal.escapeQuotes, ih]
    · rw [unescape.eq_3 c cs hq]
      simp [Literal.escapeQuotes, hq, ih]

end IsQuotable

theorem mem_quotable_iff {cs : List Char} : cs ∈ quotable ↔ IsQuotable cs := by
  constructor
  · intro h
    obtain ⟨parts, rfl, hparts⟩ := Language.mem_kstar.mp h
    clear h
    induction parts with
    | nil => exact .nil
    | cons part parts ih =>
      obtain ⟨hpart, hrest⟩ := List.forall_mem_cons.mp hparts
      obtain ⟨c, hc, rfl⟩ | hpart := hpart
      · have hc : c ≠ '"' ∧ c ≠ '\\' := by simpa [isPlain] using hc
        exact .plain hc.1 hc.2 (ih hrest)
      · obtain ⟨b, _, hb, ⟨c, hc, rfl⟩, rfl⟩ := mem_letter_mul.mp hpart
        obtain rfl := beq_iff_eq.mp hb
        exact .escaped (by simpa using hc) (ih hrest)
  · intro h
    induction h with
    | nil => exact Language.nil_mem_kstar _
    | plain hq hb _ ih =>
      rw [← mul_one quotable, cons_mem_quotable_mul, mul_one]
      exact .inr (.inl ⟨by simp [isPlain, hq, hb], ih⟩)
    | escaped hn _ ih =>
      rw [← mul_one quotable, cons_mem_quotable_mul, mul_one]
      exact .inr (.inr ⟨rfl, cons_mem_letter_mul.mpr ⟨by simpa using hn, ih⟩⟩)

theorem isLexeme_str_iff {cs : List Char} :
    IsLexeme .str cs ↔ ∃ body, IsQuotable body ∧ cs = '"' :: (body ++ ['"']) := by
  rw [isLexeme_iff, Kind.pattern, mem_letter_mul]
  simp [Language.mem_mul, mem_quotable_iff, Kind.isKeyword]

@[simp] theorem inner_quoted (body : List Char) : inner ('"' :: (body ++ ['"'])) = body := by
  simp [inner]

/-- A text is printed with the quotes and escapes that it was written with. -/
theorem IsLexeme.str {cs : List Char} (h : IsLexeme .str cs) :
    (Literal.quote (String.ofList (unescape (inner cs)))).toList = cs := by
  obtain ⟨body, hbody, rfl⟩ := isLexeme_str_iff.mp h
  simp [Literal.quote, hbody.escapeQuotes_unescape]

/-! ### Where lexemes end -/

theorem step_eq_none {p : Progress} {k : Kind} {c : Char} (hk : p.accepts = some k)
    (hb : k ≠ .blank) (hw : isWordChar c = false) (hd : c ≠ '.' ∨ k = .symbol) :
    p.step c = none := by
  have hdigit : c.isDigit = false := by
    simp only [isWordChar, Char.isAlphanum, Bool.or_eq_false_iff] at hw
    exact hw.2.2
  cases p with
  | mark | quotedSymbol | stringEnd => rfl
  | word => simp [step, hw]
  | digits =>
    cases hk
    have hd : c ≠ '.' := by simpa using hd
    simp [step, hdigit, hd]
  | fraction | index => simp [step, hdigit]
  | blanks =>
    cases hk
    exact absurd rfl hb
  | _ => cases hk

/-- The characters hold a token wherever neither a word nor a number goes on behind them. -/
theorem lexFrom_lexeme {k k' : Kind} {payload : Option Literal} {cs : List Char}
    (h : IsLexeme k cs) (hb : k ≠ .blank) (hd : decode? k cs = some (k', payload))
    (position : Nat) (rest : List Char)
    (hstop : ∀ c ∈ rest.head?, isWordChar c = false ∧ (c ≠ '.' ∨ k = .symbol)) :
    ∃ t position', lexFrom position (cs ++ rest) = t :: lexFrom position' rest ∧
      t.kind = k' ∧ t.payload = payload := by
  obtain ⟨p, hrun, hk⟩ := h
  have hlex := lexFrom_append hrun hk hb hd position rest fun c hc =>
    step_eq_none hk hb (hstop c hc).1 (hstop c hc).2
  exact ⟨_, _, hlex, rfl, rfl⟩

theorem lexFrom_mark {c : Char} {k : Kind} (hm : mark? c = some k) (position : Nat)
    (rest : List Char) :
    ∃ t position', lexFrom position (c :: rest) = t :: lexFrom position' rest ∧ t.kind = k := by
  have hrun : start.run [c] = some (mark k) := by simp [step, hm]
  have hne := mark?_ne hm
  have hd : decode? k [c] = some (k, none) := by
    cases k with
    | symbol | str | int | double | result => exact absurd (by decide) hne
    | _ => rfl
  have hb : k ≠ .blank := by
    rintro rfl
    exact hne (by decide)
  have hlex := lexFrom_append hrun rfl hb hd position rest fun _ _ => rfl
  exact ⟨_, _, hlex, rfl⟩

/-! ### What names and numbers are printed as -/

theorem isLexeme_of_isIdentifier {cs : List Char} (h : DottedName.isIdentifier cs = true) :
    IsLexeme .symbol cs :=
  isLexeme_symbol_iff.mpr (.inl h)

theorem decode?_identifier {name : String} (h : DottedName.isIdentifier name.toList = true)
    (hk : name ∉ ["new", "static"]) :
    decode? .symbol name.toList = some (.symbol, some (.str name)) := by
  have hname : symbolName name.toList = name := by
    unfold symbolName
    split
    · rename_i heq
      rw [heq] at h
      exact nomatch h
    · exact String.ofList_toList
  simp only [List.mem_cons, List.not_mem_nil, or_false, not_or] at hk
  simp only [decode?, String.toList_inj, hk, hname, if_false]

/-- The names that grammar text has for symbols. -/
structure IsSymbolName (name : String) : Prop where
  spelled : DottedName.isIdentifier name.toList = true ∨ ∃ c, c ≠ '\'' ∧ name.toList = [c]
  notKeyword : name ∉ ["new", "static"]

theorem isSymbolName_of_decode? {k : Kind} {cs : List Char} {name : String} (h : IsLexeme k cs)
    (hd : decode? k cs = some (.symbol, some (.str name))) : IsSymbolName name := by
  obtain rfl : k = .symbol := by simpa [eq_comm] using kind_of_decode? hd
  simp only [decode?] at hd
  split at hd
  · cases hd
  · rename_i hnew
    split at hd
    · cases hd
    · rename_i hstatic
      cases hd
      rcases isLexeme_symbol_iff.mp h with hi | ⟨c, hc, rfl⟩
      · have hname : symbolName cs = String.ofList cs := by
          unfold symbolName
          split
          · exact absurd hi Bool.false_ne_true
          · rfl
        refine ⟨.inl (by rwa [hname, String.toList_ofList]), ?_⟩
        have hkeyword : String.ofList cs ≠ "new" ∧ String.ofList cs ≠ "static" := by
          simp only [← String.toList_inj, String.toList_ofList, ne_eq]
          exact ⟨hnew, hstatic⟩
        simpa [hname] using hkeyword
      · refine ⟨.inr ⟨c, hc, by simp [symbolName, inner]⟩, ?_⟩
        simp [symbolName, inner, ← String.toList_inj]

theorem IsSymbolName.lexeme {name : String} (h : IsSymbolName name) :
    IsLexeme .symbol (Grammar.symbolText name).toList ∧
      decode? .symbol (Grammar.symbolText name).toList = some (.symbol, some (.str name)) := by
  unfold Grammar.symbolText
  split
  · rename_i hi
    exact ⟨isLexeme_of_isIdentifier hi, decode?_identifier hi h.notKeyword⟩
  · rename_i hi
    obtain ⟨c, hc, hname⟩ := h.spelled.resolve_left hi
    have htext : ("'" ++ name ++ "'").toList = ['\'', c, '\''] := by simp [hname]
    rw [htext]
    refine ⟨isLexeme_symbol_iff.mpr (.inr ⟨c, hc, rfl⟩), ?_⟩
    have hsymbol : symbolName ['\'', c, '\''] = name := by
      rw [← String.toList_inj, hname, symbolName, String.toList_ofList]
      rfl
    simp [decode?, hsymbol]

theorem natOfDigits_eq (ds : List Char) :
    Decimal.natOfDigits ds = Nat.ofDigitChars 10 ds 0 := by
  simp [Decimal.natOfDigits, Nat.ofDigitChars, Nat.mul_comm]

theorem natOfDigits_toDigits (n : Nat) : Decimal.natOfDigits (Nat.toDigits 10 n) = n := by
  rw [natOfDigits_eq, Nat.ofDigitChars_ten_toDigits]

theorem toDigits_mem_number (n : Nat) : Nat.toDigits 10 n ∈ number :=
  mem_number.mpr ⟨Nat.toDigits_ne_nil, fun _ hd =>
    Nat.isDigit_of_mem_toDigits (by decide) (by decide) hd⟩

theorem readInt_digits {ds : List Char} (h : ∀ d ∈ ds, d.isDigit = true) :
    readInt ds = Decimal.natOfDigits ds := by
  unfold readInt
  split
  · exact absurd (h '-' List.mem_cons_self) (by decide)
  · rfl

theorem readInt_toDigits (n : Nat) : readInt (Nat.toDigits 10 n) = n := by
  rw [readInt_digits fun d hd => Nat.isDigit_of_mem_toDigits (by decide) (by decide) hd]
  exact congrArg Nat.cast (natOfDigits_toDigits n)

theorem toInt64?_toInt (n : Int64) : toInt64? n.toInt = some n := by
  have hmin := Int64.minValue_le_toInt n
  have hmax := Int64.toInt_le n
  rw [toInt64?, if_pos (by simp only [hmin, hmax, decide_true, Bool.and_true]), Int64.ofInt_toInt]

theorem toInt_of_toInt64? {n : Int} {m : Int64} (h : toInt64? n = some m) : m.toInt = n := by
  unfold toInt64? at h
  split at h
  · rename_i hn
    obtain rfl := Option.some.inj h
    simp only [Bool.and_eq_true, decide_eq_true_eq] at hn
    exact Int64.toInt_ofInt_of_le hn.1 (Int.lt_of_le_of_lt hn.2 (by decide))
  · exact nomatch h

theorem toString_ofNat (m : Nat) : (toString (Int.ofNat m)).toList = Nat.toDigits 10 m := by
  have h : toString (Int.ofNat m) = toString m := rfl
  rw [h, Nat.toString_eq_ofList_toDigits, String.toList_ofList]

theorem toString_negSucc (m : Nat) :
    (toString (Int.negSucc m)).toList = '-' :: Nat.toDigits 10 (m + 1) := by
  have h : toString (Int.negSucc m) = "-" ++ toString (m + 1) := rfl
  rw [h, Nat.toString_eq_ofList_toDigits, String.toList_append, String.toList_ofList,
    String.toList_ofList, List.singleton_append]

theorem isLexeme_int (n : Int64) :
    IsLexeme .int (toString n.toInt).toList ∧
      decode? .int (toString n.toInt).toList = some (.int, some (.int n)) := by
  have hread : readInt (toString n.toInt).toList = n.toInt := by
    cases n.toInt with
    | ofNat m => rw [toString_ofNat, readInt_toDigits, Int.ofNat_eq_natCast]
    | negSucc m =>
      rw [toString_negSucc, readInt, natOfDigits_toDigits]
      rfl
  refine ⟨isLexeme_iff.mpr ⟨rfl, ?_⟩, by simp only [decode?, hread, toInt64?_toInt]⟩
  rw [Kind.pattern, mem_signed]
  cases n.toInt with
  | ofNat m =>
    rw [toString_ofNat]
    exact .inl (toDigits_mem_number m)
  | negSucc m =>
    rw [toString_negSucc, cons_mem_letter_mul]
    exact .inr ⟨rfl, toDigits_mem_number (m + 1)⟩

theorem isLexeme_result {i : Nat} {n : Int64} (h : n.toInt = i) :
    IsLexeme .result ("$" ++ toString i).toList ∧
      decode? .result ("$" ++ toString i).toList = some (.result, some (.int n)) := by
  have htext : ("$" ++ toString i).toList = '$' :: Nat.toDigits 10 i := by simp
  rw [htext]
  constructor
  · exact isLexeme_result_iff.mpr ⟨_, mem_number.mp (toDigits_mem_number i), rfl⟩
  · rw [decode?, List.drop_one, List.tail_cons, readInt_toDigits, ← h, toInt64?_toInt]
    rfl

end ActionGrammar.GrammarText
