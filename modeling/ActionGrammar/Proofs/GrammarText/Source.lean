import ActionGrammar.Proofs.Expr.Everywhere
import ActionGrammar.Proofs.GrammarText.Notation
import ActionGrammar.Proofs.GrammarText.Spelling
import ActionGrammar.Proofs.Text.DottedName

/-! # What texts declare

A text declares no names but those of its symbols, and no constants or indices
but those of its tokens. All of these, doubles apart, are printed as tokens that
stand for them, once the names of callees are dotted names.
-/

namespace ActionGrammar

open GrammarText

def Literal.IsPrintable (l : Literal) : Prop :=
  ∃ k ∈ [Kind.str, .int], IsLexeme k l.text.toList ∧ decode? k l.text.toList = some (k, some l)

def IsIndex (i : Nat) : Prop := ∃ n : Int64, n.toInt = i

namespace Template

/-- Callees are named by symbols, and literals and indices come from tokens. -/
def IsOfText (t : Template) : Prop :=
  t.Everywhere (fun c => ∃ ns, ns ≠ [] ∧ (∀ n ∈ ns, IsSymbolName n) ∧ c = DottedName.join ns)
    (fun l => (∀ x, l ≠ .double x) → l.IsPrintable) IsIndex

end Template

structure RuleDecl.IsOfText (r : RuleDecl) : Prop where
  nonTerminal : IsSymbolName r.nonTerminal
  symbols : ∀ s ∈ r.symbols, IsSymbolName s
  action : ∀ t ∈ r.action, t.IsOfText

def Part.IsOfText : Part → Prop
  | grammar d => ∀ r ∈ d.rules, r.IsOfText
  | rule r => r.IsOfText
  | names ns => ∀ n ∈ ns, IsSymbolName n
  | exprs es => ∀ e ∈ es, e.IsOfText
  | expr e => e.IsOfText

namespace GrammarText

def Token.IsOfText (t : Token) : Prop :=
  ∃ k cs, IsLexeme k cs ∧ decode? k cs = some (t.kind, t.payload)

variable {t : Token} {ts : List Token} {ph : Phrase} {p : Part} {d : GrammarDecl}

theorem isSymbolName_of_writes {n : String} (ht : t.IsOfText)
    (h : Token.alphabet.symbol t n) : IsSymbolName n := by
  obtain ⟨k, cs, hl, hd⟩ := ht
  rw [h.1, h.2] at hd
  exact isSymbolName_of_decode? hl hd

theorem isPrintable_of_decode? {k k' : Kind} {cs : List Char} {l : Literal}
    (hl : IsLexeme k cs) (hd : decode? k cs = some (k', some l)) (hk : k' ∈ [.str, .int, .double])
    (hx : ∀ x, l ≠ .double x) : l.IsPrintable := by
  cases k with
  | str =>
    have htext := hl.str
    cases hd
    exact ⟨.str, by decide, by rwa [Literal.text, htext], by rw [Literal.text, htext]; rfl⟩
  | int =>
    simp only [decode?] at hd
    split at hd
    · rename_i n _
      cases hd
      obtain ⟨hl, hd⟩ := isLexeme_int n
      exact ⟨.int, by decide, hl, hd⟩
    · obtain ⟨x, -, h⟩ := Option.map_eq_some_iff.mp hd
      cases h
      exact absurd rfl (hx x)
  | double =>
    obtain ⟨x, -, h⟩ := Option.map_eq_some_iff.mp hd
    cases h
    exact absurd rfl (hx x)
  | result =>
    obtain ⟨n, -, h⟩ := Option.map_eq_some_iff.mp hd
    cases h
    exact absurd hk (by decide)
  | symbol =>
    simp only [decode?] at hd
    split at hd
    · cases hd
    · split at hd <;> cases hd
      exact absurd hk (by decide)
  | _ => cases hd

theorem isOfText_of_literal {e : Template} (ht : t.IsOfText) (h : Token.alphabet.literal t e) :
    e.IsOfText := by
  obtain ⟨k, cs, hl, hd⟩ := ht
  rcases h with ⟨-, n, i, -, hi, rfl⟩ | ⟨hk, l, hp, rfl⟩
  · exact .result ⟨n, hi⟩
  · rw [hp] at hd
    exact .constant fun hx => isPrintable_of_decode? hl hd hk hx

theorem Writes.names_ne_nil {α : Type} {A : Alphabet α} {ts : List α} {ns : List String}
    (h : Writes A .name ts (.names ns)) : ns ≠ [] := by
  cases h
  simp

theorem Writes.isOfText (h : Writes Token.alphabet ph ts p) (hts : ∀ t ∈ ts, t.IsOfText) :
    p.IsOfText := by
  induction h with
  | noRules | noSymbols | noExprs | noNameTail | noArgs | noArgsTail =>
    simp [Part.IsOfText, GrammarDecl.empty]
  | grammar _ _ ih ih' | rules _ _ ih ih' =>
    obtain ⟨hr, hrs⟩ := List.forall_mem_append.mp hts
    exact List.forall_mem_cons.mpr ⟨ih hr, ih' hrs⟩
  | rule ht _ _ _ _ _ ih ih' =>
    simp only [List.forall_mem_cons, List.forall_mem_append] at hts
    obtain ⟨hn, -, hs, -, hes, -⟩ := hts
    exact ⟨isSymbolName_of_writes hn ht, ih hs, ih' hes⟩
  | symbols ht _ ih | name ht _ ih =>
    obtain ⟨hn, hns⟩ := List.forall_mem_cons.mp hts
    exact List.forall_mem_cons.mpr ⟨isSymbolName_of_writes hn ht, ih hns⟩
  | nameTail _ ht _ ih =>
    simp only [List.forall_mem_cons] at hts
    obtain ⟨-, hn, hns⟩ := hts
    exact List.forall_mem_cons.mpr ⟨isSymbolName_of_writes hn ht, ih hns⟩
  | exprs _ _ _ ih ih' =>
    simp only [List.forall_mem_cons, List.forall_mem_append] at hts
    exact List.forall_mem_cons.mpr ⟨ih hts.1, ih' hts.2.2⟩
  | args _ _ ih ih' =>
    obtain ⟨he, hes⟩ := List.forall_mem_append.mp hts
    exact List.forall_mem_cons.mpr ⟨ih he, ih' hes⟩
  | argsTail _ _ _ ih ih' =>
    simp only [List.forall_mem_cons, List.forall_mem_append] at hts
    exact List.forall_mem_cons.mpr ⟨ih hts.2.1, ih' hts.2.2⟩
  | construct _ hn _ _ _ ih ih' =>
    simp only [List.forall_mem_cons, List.forall_mem_append] at hts
    obtain ⟨-, hns, -, hes, -⟩ := hts
    exact .construct ⟨_, hn.names_ne_nil, ih hns, rfl⟩ (ih' hes)
  | static _ hn _ _ _ ih ih' =>
    simp only [List.forall_mem_cons, List.forall_mem_append] at hts
    obtain ⟨-, hns, -, hes, -⟩ := hts
    exact .static ⟨_, hn.names_ne_nil, ih hns, rfl⟩ (ih' hes)
  | invoke hn _ _ _ _ ih ih' ih'' =>
    simp only [List.forall_mem_cons, List.forall_mem_append] at hts
    obtain ⟨hns, -, he, hes, -⟩ := hts
    exact .invoke ⟨_, hn.names_ne_nil, ih hns, rfl⟩ (ih' he) (ih'' hes)
  | exprLiteral _ ih => exact ih hts
  | literal ht => exact isOfText_of_literal (hts _ List.mem_cons_self) ht

theorem isOfText_of_declares {source : String} (hg : ∀ t ∈ lex source, t.kind ≠ .garbage)
    (h : Declares (lex source) d) : ∀ r ∈ d.rules, r.IsOfText := by
  have hts : ∀ t ∈ lex source, t.IsOfText := fun t ht => exists_lexeme_of_mem_lex ht (hg t ht)
  exact Writes.isOfText h hts

theorem start_of_declares {tokens : List Token} (h : Declares tokens d) :
    ∃ r rs, d = ⟨r :: rs, some r.nonTerminal⟩ := by
  unfold Declares at h
  cases h with
  | grammar _ _ => exact ⟨_, _, rfl⟩

end GrammarText

/-! ### Printable templates -/

def IsPrintableName (name : String) : Prop :=
  ∃ ns, ns ≠ [] ∧ (∀ n ∈ ns, DottedName.isIdentifier n.toList = true ∧ n ∉ ["new", "static"]) ∧
    name = DottedName.join ns

/-- The template is printed as tokens that write it. -/
def Template.IsPrintable (t : Template) : Prop :=
  t.Everywhere IsPrintableName Literal.IsPrintable IsIndex

/-- Nonterminals are printed without quotes. -/
structure RuleDecl.IsPrintable (r : RuleDecl) : Prop where
  nonTerminal : DottedName.isIdentifier r.nonTerminal.toList = true ∧
    r.nonTerminal ∉ ["new", "static"]
  symbols : ∀ s ∈ r.symbols, IsSymbolName s
  action : ∀ t ∈ r.action, t.IsPrintable

theorem isIdentifier_of_isWellFormed {n : String} (hn : IsSymbolName n)
    (h : DottedName.isWellFormed n = true) : DottedName.isIdentifier n.toList = true := by
  rcases hn.spelled with hi | ⟨c, -, hc⟩
  · exact hi
  · by_cases hdot : c = '.'
    · subst hdot
      rw [DottedName.isWellFormed, hc] at h
      exact absurd h (by decide)
    · have hseg : DottedName.segments n.toList = [n.toList] := by
        simp [hc, DottedName.segments, hdot]
      simpa [DottedName.isWellFormed, hseg] using h

theorem isPrintableName_of_isWellFormed {ns : List String} (hne : ns ≠ [])
    (hns : ∀ n ∈ ns, IsSymbolName n) (h : DottedName.isWellFormed (DottedName.join ns) = true) :
    IsPrintableName (DottedName.join ns) := by
  refine ⟨ns, hne, fun n hn => ⟨?_, (hns n hn).notKeyword⟩, rfl⟩
  exact isIdentifier_of_isWellFormed (hns n hn) ((DottedName.isWellFormed_join_iff hne).mp h n hn)

theorem Template.IsOfText.isPrintable {t : Template} (h : t.IsOfText)
    (hd : t.Everywhere (DottedName.isWellFormed · = true) (fun l => ∀ x, l ≠ .double x)
      fun _ => True) : t.IsPrintable := by
  refine h.and hd ?_ (fun _ hl hx => hl hx) fun _ hi _ => hi
  rintro _ ⟨ns, hne, hns, rfl⟩ hw
  exact isPrintableName_of_isWellFormed hne hns hw

end ActionGrammar
