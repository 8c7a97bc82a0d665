import ActionGrammar.GrammarText.Part
import ActionGrammar.GrammarText.Token
import Mathlib.Data.List.Forall2

/-! # The notation of grammar text

Grammar text is a sequence of phrases, and a phrase writes a part of a declared
grammar. What it takes for a token to stand in a phrase is left open: with its
literal a token writes a name or a constant, and by its kind alone it writes
any. Which texts are grammars depends on the kinds of their tokens alone.
-/

namespace ActionGrammar.GrammarText

inductive Phrase where
  | grammar
  | rules
  | rule
  | symbols
  | exprs
  | expr
  | name
  | nameTail
  | args
  | argsTail
  | literal
  deriving DecidableEq

/-- The letters that phrases are made of. -/
structure Alphabet (α : Type) where
  kind : α → Kind
  symbol : α → String → Prop
  literal : α → Template → Prop

/-- Tokens write what their literals say. -/
def Token.alphabet : Alphabet Token where
  kind := Token.kind
  symbol t n := t.kind = .symbol ∧ t.payload = some (.str n)
  literal t e :=
    (t.kind = .result ∧ ∃ (n : Int64) (i : Nat), t.payload = some (.int n) ∧ n.toInt = i ∧
      e = .result i) ∨
    (t.kind ∈ [.str, .int, .double] ∧ ∃ l, t.payload = some l ∧ e = .constant l)

/-- A kind writes whatever a token of it may write. -/
def Kind.alphabet : Alphabet Kind where
  kind := id
  symbol k _ := k = .symbol
  literal k _ := k ∈ [.result, .str, .int, .double]

/-- The phrase, made of the letters, writes the part. -/
inductive Writes {α : Type} (A : Alphabet α) : Phrase → List α → Part → Prop
  | grammar {ts us : List α} {r : RuleDecl} {d : GrammarDecl} :
      Writes A .rule ts (.rule r) → Writes A .rules us (.grammar d) →
      Writes A .grammar (ts ++ us) (.grammar ⟨r :: d.rules, some r.nonTerminal⟩)
  | noRules : Writes A .rules [] (.grammar .empty)
  | rules {ts us : List α} {r : RuleDecl} {d : GrammarDecl} :
      Writes A .rule ts (.rule r) → Writes A .rules us (.grammar d) →
      Writes A .rules (ts ++ us) (.grammar { d with rules := r :: d.rules })
  | rule {t c l r : α} {ts us : List α} {n : String} {ns : List String} {es : List Template} :
      A.symbol t n → A.kind c = .colon → Writes A .symbols ts (.names ns) →
      A.kind l = .leftBrace → Writes A .exprs us (.exprs es) → A.kind r = .rightBrace →
      Writes A .rule (t :: c :: (ts ++ l :: (us ++ [r]))) (.rule ⟨n, ns, es⟩)
  | noSymbols : Writes A .symbols [] (.names [])
  | symbols {t : α} {ts : List α} {n : String} {ns : List String} : A.symbol t n →
      Writes A .symbols ts (.names ns) → Writes A .symbols (t :: ts) (.names (n :: ns))
  | noExprs : Writes A .exprs [] (.exprs [])
  | exprs {s : α} {ts us : List α} {e : Template} {es : List Template} :
      Writes A .expr ts (.expr e) → A.kind s = .semicolon → Writes A .exprs us (.exprs es) →
      Writes A .exprs (ts ++ s :: us) (.exprs (e :: es))
  | construct {k l r : α} {ts us : List α} {ns : List String} {es : List Template} :
      A.kind k = .new → Writes A .name ts (.names ns) → A.kind l = .leftParen →
      Writes A .args us (.exprs es) → A.kind r = .rightParen →
      Writes A .expr (k :: (ts ++ l :: (us ++ [r]))) (.expr (.construct (DottedName.join ns) es))
  | static {k l r : α} {ts us : List α} {ns : List String} {es : List Template} :
      A.kind k = .static → Writes A .name ts (.names ns) → A.kind l = .leftParen →
      Writes A .args us (.exprs es) → A.kind r = .rightParen →
      Writes A .expr (k :: (ts ++ l :: (us ++ [r]))) (.expr (.static (DottedName.join ns) es))
  | invoke {l r : α} {ts us vs : List α} {ns : List String} {e : Template} {es : List Template} :
      Writes A .name ts (.names ns) → A.kind l = .leftParen → Writes A .expr us (.expr e) →
      Writes A .argsTail vs (.exprs es) → A.kind r = .rightParen →
      Writes A .expr (ts ++ l :: (us ++ (vs ++ [r]))) (.expr (.invoke (DottedName.join ns) e es))
  | exprLiteral {ts : List α} {e : Template} : Writes A .literal ts (.expr e) →
      Writes A .expr ts (.expr e)
  | name {t : α} {ts : List α} {n : String} {ns : List String} : A.symbol t n →
      Writes A .nameTail ts (.names ns) → Writes A .name (t :: ts) (.names (n :: ns))
  | noNameTail : Writes A .nameTail [] (.names [])
  | nameTail {d t : α} {ts : List α} {n : String} {ns : List String} : A.kind d = .dot →
      A.symbol t n → Writes A .nameTail ts (.names ns) →
      Writes A .nameTail (d :: t :: ts) (.names (n :: ns))
  | noArgs : Writes A .args [] (.exprs [])
  | args {ts us : List α} {e : Template} {es : List Template} : Writes A .expr ts (.expr e) →
      Writes A .argsTail us (.exprs es) → Writes A .args (ts ++ us) (.exprs (e :: es))
  | noArgsTail : Writes A .argsTail [] (.exprs [])
  | argsTail {c : α} {ts us : List α} {e : Template} {es : List Template} : A.kind c = .comma →
      Writes A .expr ts (.expr e) → Writes A .argsTail us (.exprs es) →
      Writes A .argsTail (c :: (ts ++ us)) (.exprs (e :: es))
  | literal {t : α} {e : Template} : A.literal t e → Writes A .literal [t] (.expr e)

/-- The token sequence of a text that declares the grammar. -/
def Declares (tokens : List Token) (d : GrammarDecl) : Prop :=
  Writes Token.alphabet .grammar tokens (.grammar d)

/-- The kinds of tokens, in order, of which grammar text is made. -/
def IsGrammar (kinds : List Kind) : Prop := ∃ p, Writes Kind.alphabet .grammar kinds p

/-- The parts that a phrase may write. -/
def Phrase.Sort (p : Part) : Phrase → Prop
  | grammar | rules => ∃ d, p = .grammar d
  | rule => ∃ r, p = .rule r
  | symbols | name | nameTail => ∃ ns, p = .names ns
  | exprs | args | argsTail => ∃ es, p = .exprs es
  | expr | literal => ∃ e, p = .expr e

section

variable {α β : Type} {A : Alphabet α} {B : Alphabet β} {ph : Phrase} {ts : List α} {p : Part}

theorem Writes.sort (h : Writes A ph ts p) : ph.Sort p := by
  cases h <;> exact ⟨_, rfl⟩

theorem forall₂_append_left_iff {R : α → β → Prop} {ts ts' : List α} {us : List β} :
    List.Forall₂ R (ts ++ ts') us ↔
      ∃ us₁ us₂, us = us₁ ++ us₂ ∧ List.Forall₂ R ts us₁ ∧ List.Forall₂ R ts' us₂ := by
  constructor
  · intro h
    induction ts generalizing us with
    | nil => exact ⟨[], us, rfl, .nil, h⟩
    | cons t ts ih =>
      obtain ⟨u, us', hu, hus, rfl⟩ := List.forall₂_cons_left_iff.mp h
      obtain ⟨us₁, us₂, rfl, h₁, h₂⟩ := ih hus
      exact ⟨u :: us₁, us₂, rfl, .cons hu h₁, h₂⟩
  · rintro ⟨us₁, us₂, rfl, h₁, h₂⟩
    exact List.rel_append h₁ h₂

/-- Letters that agree on kinds, and on whether they write a name or a literal, make up the same
phrases. -/
theorem Writes.transfer {R : α → β → Prop} (hkind : ∀ {a b}, R a b → A.kind a = B.kind b)
    (hsymbol : ∀ {a b n}, R a b → A.symbol a n → ∃ n', B.symbol b n')
    (hliteral : ∀ {a b e}, R a b → A.literal a e → ∃ e', B.literal b e')
    (h : Writes A ph ts p) : ∀ us, List.Forall₂ R ts us → ∃ q, Writes B ph us q := by
  induction h with
  | grammar _ _ ih ih' =>
    intro us hus
    obtain ⟨us₁, us₂, rfl, h₁, h₂⟩ := forall₂_append_left_iff.mp hus
    obtain ⟨q, hq⟩ := ih us₁ h₁
    obtain ⟨q', hq'⟩ := ih' us₂ h₂
    obtain ⟨r, rfl⟩ := hq.sort
    obtain ⟨d, rfl⟩ := hq'.sort
    exact ⟨_, .grammar hq hq'⟩
  | noRules =>
    rintro _ ⟨⟩
    exact ⟨_, .noRules⟩
  | rules _ _ ih ih' =>
    intro us hus
    obtain ⟨us₁, us₂, rfl, h₁, h₂⟩ := forall₂_append_left_iff.mp hus
    obtain ⟨q, hq⟩ := ih us₁ h₁
    obtain ⟨q', hq'⟩ := ih' us₂ h₂
    obtain ⟨r, rfl⟩ := hq.sort
    obtain ⟨d, rfl⟩ := hq'.sort
    exact ⟨_, .rules hq hq'⟩
  | rule ht hc _ hl _ hr ih ih' =>
    rintro _ (_ | ⟨ht', _ | ⟨hc', hus⟩⟩)
    obtain ⟨us₁, _, rfl, h₁, _ | ⟨hl', hus'⟩⟩ := forall₂_append_left_iff.mp hus
    obtain ⟨us₂, _, rfl, h₂, _ | ⟨hr', ⟨⟩⟩⟩ := forall₂_append_left_iff.mp hus'
    obtain ⟨n, hn⟩ := hsymbol ht' ht
    obtain ⟨q, hq⟩ := ih us₁ h₁
    obtain ⟨q', hq'⟩ := ih' us₂ h₂
    obtain ⟨ns, rfl⟩ := hq.sort
    obtain ⟨es, rfl⟩ := hq'.sort
    exact ⟨_, .rule hn (hkind hc' ▸ hc) hq (hkind hl' ▸ hl) hq' (hkind hr' ▸ hr)⟩
  | noSymbols =>
    rintro _ ⟨⟩
    exact ⟨_, .noSymbols⟩
  | symbols ht _ ih =>
    rintro _ (_ | ⟨ht', hus⟩)
    obtain ⟨n, hn⟩ := hsymbol ht' ht
    obtain ⟨q, hq⟩ := ih _ hus
    obtain ⟨ns, rfl⟩ := hq.sort
    exact ⟨_, .symbols hn hq⟩
  | noExprs =>
    rintro _ ⟨⟩
    exact ⟨_, .noExprs⟩
  | exprs _ hs _ ih ih' =>
    intro us hus
    obtain ⟨us₁, _, rfl, h₁, _ | ⟨hs', h₂⟩⟩ := forall₂_append_left_iff.mp hus
    obtain ⟨q, hq⟩ := ih us₁ h₁
    obtain ⟨q', hq'⟩ := ih' _ h₂
    obtain ⟨e, rfl⟩ := hq.sort
    obtain ⟨es, rfl⟩ := hq'.sort
    exact ⟨_, .exprs hq (hkind hs' ▸ hs) hq'⟩
  | construct hk _ hl _ hr ih ih' =>
    rintro _ (_ | ⟨hk', hus⟩)
    obtain ⟨us₁, _, rfl, h₁, _ | ⟨hl', hus'⟩⟩ := forall₂_append_left_iff.mp hus
    obtain ⟨us₂, _, rfl, h₂, _ | ⟨hr', ⟨⟩⟩⟩ := forall₂_append_left_iff.mp hus'
    obtain ⟨q, hq⟩ := ih us₁ h₁
    obtain ⟨q', hq'⟩ := ih' us₂ h₂
    obtain ⟨ns, rfl⟩ := hq.sort
    obtain ⟨es, rfl⟩ := hq'.sort
    exact ⟨_, .construct (hkind hk' ▸ hk) hq (hkind hl' ▸ hl) hq' (hkind hr' ▸ hr)⟩
  | static hk _ hl _ hr ih ih' =>
    rintro _ (_ | ⟨hk', hus⟩)
    obtain ⟨us₁, _, rfl, h₁, _ | ⟨hl', hus'⟩⟩ := forall₂_append_left_iff.mp hus
    obtain ⟨us₂, _, rfl, h₂, _ | ⟨hr', ⟨⟩⟩⟩ := forall₂_append_left_iff.mp hus'
    obtain ⟨q, hq⟩ := ih us₁ h₁
    obtain ⟨q', hq'⟩ := ih' us₂ h₂
    obtain ⟨ns, rfl⟩ := hq.sort
    obtain ⟨es, rfl⟩ := hq'.sort
    exact ⟨_, .static (hkind hk' ▸ hk) hq (hkind hl' ▸ hl) hq' (hkind hr' ▸ hr)⟩
  | invoke _ hl _ _ hr ih ih' ih'' =>
    intro us hus
    obtain ⟨us₁, _, rfl, h₁, _ | ⟨hl', hus'⟩⟩ := forall₂_append_left_iff.mp hus
    obtain ⟨us₂, _, rfl, h₂, hus''⟩ := forall₂_append_left_iff.mp hus'
    obtain ⟨us₃, _, rfl, h₃, _ | ⟨hr', ⟨⟩⟩⟩ := forall₂_append_left_iff.mp hus''
    obtain ⟨q, hq⟩ := ih us₁ h₁
    obtain ⟨q', hq'⟩ := ih' us₂ h₂
    obtain ⟨q'', hq''⟩ := ih'' us₃ h₃
    obtain ⟨ns, rfl⟩ := hq.sort
    obtain ⟨e, rfl⟩ := hq'.sort
    obtain ⟨es, rfl⟩ := hq''.sort
    exact ⟨_, .invoke hq (hkind hl' ▸ hl) hq' hq'' (hkind hr' ▸ hr)⟩
  | exprLiteral _ ih =>
    intro us hus
    obtain ⟨q, hq⟩ := ih us hus
    obtain ⟨e, rfl⟩ := hq.sort
    exact ⟨_, .exprLiteral hq⟩
  | name ht _ ih =>
    rintro _ (_ | ⟨ht', hus⟩)
    obtain ⟨n, hn⟩ := hsymbol ht' ht
    obtain ⟨q, hq⟩ := ih _ hus
    obtain ⟨ns, rfl⟩ := hq.sort
    exact ⟨_, .name hn hq⟩
  | noNameTail =>
    rintro _ ⟨⟩
    exact ⟨_, .noNameTail⟩
  | nameTail hd ht _ ih =>
    rintro _ (_ | ⟨hd', _ | ⟨ht', hus⟩⟩)
    obtain ⟨n, hn⟩ := hsymbol ht' ht
    obtain ⟨q, hq⟩ := ih _ hus
    obtain ⟨ns, rfl⟩ := hq.sort
    exact ⟨_, .nameTail (hkind hd' ▸ hd) hn hq⟩
  | noArgs =>
    rintro _ ⟨⟩
    exact ⟨_, .noArgs⟩
  | args _ _ ih ih' =>
    intro us hus
    obtain ⟨us₁, us₂, rfl, h₁, h₂⟩ := forall₂_append_left_iff.mp hus
    obtain ⟨q, hq⟩ := ih us₁ h₁
    obtain ⟨q', hq'⟩ := ih' us₂ h₂
    obtain ⟨e, rfl⟩ := hq.sort
    obtain ⟨es, rfl⟩ := hq'.sort
    exact ⟨_, .args hq hq'⟩
  | noArgsTail =>
    rintro _ ⟨⟩
    exact ⟨_, .noArgsTail⟩
  | argsTail hc _ _ ih ih' =>
    rintro _ (_ | ⟨hc', hus⟩)
    obtain ⟨us₁, us₂, rfl, h₁, h₂⟩ := forall₂_append_left_iff.mp hus
    obtain ⟨q, hq⟩ := ih us₁ h₁
    obtain ⟨q', hq'⟩ := ih' us₂ h₂
    obtain ⟨e, rfl⟩ := hq.sort
    obtain ⟨es, rfl⟩ := hq'.sort
    exact ⟨_, .argsTail (hkind hc' ▸ hc) hq hq'⟩
  | literal ht =>
    rintro _ (_ | ⟨ht', ⟨⟩⟩)
    obtain ⟨e, he⟩ := hliteral ht' ht
    exact ⟨_, .literal he⟩

end

/-- The token has a literal of the sort that its kind promises. -/
def Token.Fits (t : Token) : Prop :=
  match t.kind with
  | .symbol | .str => ∃ s, t.payload = some (.str s)
  | .int => ∃ n, t.payload = some (.int n)
  | .double => ∃ x, t.payload = some (.double x)
  | .result => ∃ (n : Int64) (i : Nat), t.payload = some (.int n) ∧ n.toInt = i
  | _ => True

namespace Token.Fits

variable {t : Token}

theorem exists_str (h : t.Fits) (hk : t.kind = .symbol) : ∃ n, t.payload = some (.str n) := by
  simpa [Token.Fits, hk] using h

theorem exists_result (h : t.Fits) (hk : t.kind = .result) :
    ∃ (n : Int64) (i : Nat), t.payload = some (.int n) ∧ n.toInt = i := by
  simpa [Token.Fits, hk] using h

theorem exists_literal (h : t.Fits) (hk : t.kind ∈ [.str, .int, .double]) :
    ∃ l, t.payload = some l := by
  simp only [List.mem_cons, List.not_mem_nil, or_false] at hk
  rcases hk with hk | hk | hk <;> rw [Token.Fits, hk] at h <;> exact ⟨_, h.choose_spec⟩

end Token.Fits

theorem isGrammar_iff {tokens : List Token} (h : ∀ t ∈ tokens, t.Fits) :
    IsGrammar (tokens.map Token.kind) ↔ ∃ d, Declares tokens d := by
  constructor
  · rintro ⟨p, hp⟩
    have hR : List.Forall₂ (fun k t => t.kind = k ∧ t.Fits) (tokens.map Token.kind) tokens := by
      rw [List.forall₂_map_left_iff, List.forall₂_same]
      exact fun t ht => ⟨rfl, h t ht⟩
    have hsymbol {k : Kind} {t : Token} {n : String} (h : t.kind = k ∧ t.Fits)
        (hk : Kind.alphabet.symbol k n) : ∃ n', Token.alphabet.symbol t n' := by
      obtain ⟨rfl, hf⟩ := h
      have hk : t.kind = .symbol := hk
      obtain ⟨n, hn⟩ := hf.exists_str hk
      exact ⟨n, hk, hn⟩
    have hliteral {k : Kind} {t : Token} {e : Template} (h : t.kind = k ∧ t.Fits)
        (hk : Kind.alphabet.literal k e) : ∃ e', Token.alphabet.literal t e' := by
      obtain ⟨rfl, hf⟩ := h
      have hk : t.kind ∈ [.result, .str, .int, .double] := hk
      rcases List.mem_cons.mp hk with hk | hk
      · obtain ⟨n, i, hn, hi⟩ := hf.exists_result hk
        exact ⟨.result i, .inl ⟨hk, n, i, hn, hi, rfl⟩⟩
      · obtain ⟨l, hl⟩ := hf.exists_literal hk
        exact ⟨.constant l, .inr ⟨hk, l, hl, rfl⟩⟩
    obtain ⟨q, hq⟩ := hp.transfer (fun h => h.1.symm) hsymbol hliteral tokens hR
    obtain ⟨d, rfl⟩ := hq.sort
    exact ⟨d, hq⟩
  · rintro ⟨d, hd⟩
    have hR : List.Forall₂ (fun t k => t.kind = k) tokens (tokens.map Token.kind) := by
      rw [List.forall₂_map_right_iff, List.forall₂_same]
      exact fun t ht => rfl
    have hsymbol {t : Token} {k : Kind} {n : String} (h : t.kind = k)
        (ht : Token.alphabet.symbol t n) : ∃ n', Kind.alphabet.symbol k n' :=
      ⟨n, h.symm.trans ht.1⟩
    have hliteral {t : Token} {k : Kind} {e : Template} (h : t.kind = k)
        (ht : Token.alphabet.literal t e) : ∃ e', Kind.alphabet.literal k e' := by
      subst h
      rcases ht with ⟨hk, -⟩ | ⟨hk, -⟩
      · exact ⟨e, List.mem_cons.mpr (.inl hk)⟩
      · exact ⟨e, List.mem_cons_of_mem _ hk⟩
    exact hd.transfer (fun h => h) hsymbol hliteral _ hR

end ActionGrammar.GrammarText
