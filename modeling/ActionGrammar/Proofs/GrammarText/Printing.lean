import ActionGrammar.Proofs.Grammar.Dump
import ActionGrammar.Proofs.GrammarText.Source

/-! # Printed text is read back

Whatever precedes and follows it, a printed name, expression or rule is cut into
tokens that write it, as long as the text behind it does not go on with a
character of a word or with a dot.
-/

namespace ActionGrammar

namespace GrammarText

/-- The text does not go on with a word, a number or a dotted name. -/
def Separated (rest : List Char) : Prop := ∀ c ∈ rest.head?, isWordChar c = false ∧ c ≠ '.'

theorem separated_cons {c : Char} (h : isWordChar c = false ∧ c ≠ '.') (cs : List Char) :
    Separated (c :: cs) := by
  rintro _ ⟨⟩
  exact h

theorem separated_flatMap {α : Type} {f : α → List Char} {c : Char} {rest : List Char}
    (hf : ∀ a, (f a).head? = some c) (hc : isWordChar c = false ∧ c ≠ '.') (h : Separated rest)
    (as : List α) : Separated (as.flatMap f ++ rest) := by
  cases as with
  | nil => exact h
  | cons a as =>
    obtain ⟨cs, hcs⟩ := List.head?_eq_some_iff.mp (hf a)
    rw [List.flatMap_cons, hcs]
    exact separated_cons hc _

/-- In front of a text that is separated from them, the characters are tokens that write the
part. -/
def IsReadAs (cs : List Char) (ph : Phrase) (p : Part) : Prop :=
  ∀ position rest, Separated rest → ∃ ts position',
    lexFrom position (cs ++ rest) = ts ++ lexFrom position' rest ∧ Writes Token.alphabet ph ts p

theorem toList_intercalate_cons (sep s : String) (ss : List String) :
    (sep.intercalate (s :: ss)).toList =
      s.toList ++ ss.flatMap fun s => sep.toList ++ s.toList := by
  induction ss generalizing s with
  | nil => simp
  | cons s' ss ih => simp [String.intercalate_cons_cons, ih]

/-! ### Names -/

theorem lexFrom_identifier {n : String}
    (h : DottedName.isIdentifier n.toList = true ∧ n ∉ ["new", "static"]) (position : Nat)
    (rest : List Char) (hrest : ∀ c ∈ rest.head?, isWordChar c = false) :
    ∃ t position', lexFrom position (n.toList ++ rest) = t :: lexFrom position' rest ∧
      Token.alphabet.symbol t n :=
  lexFrom_lexeme (isLexeme_of_isIdentifier h.1) (by decide) (decode?_identifier h.1 h.2) position
    rest fun c hc => ⟨hrest c hc, .inr rfl⟩

def furtherNames (ns : List String) : List Char := ns.flatMap fun n => '.' :: n.toList

theorem head?_furtherNames {ns : List String} {rest : List Char} (h : Separated rest) :
    ∀ c ∈ (furtherNames ns ++ rest).head?, isWordChar c = false := by
  cases ns with
  | nil => exact fun c hc => (h c hc).1
  | cons n ns =>
    rintro _ ⟨⟩
    decide

theorem isReadAs_nameTail {ns : List String}
    (h : ∀ n ∈ ns, DottedName.isIdentifier n.toList = true ∧ n ∉ ["new", "static"]) :
    IsReadAs (furtherNames ns) .nameTail (.names ns) := by
  induction ns with
  | nil => exact fun position rest _ => ⟨[], position, rfl, .noNameTail⟩
  | cons n ns ih =>
    intro position rest hrest
    obtain ⟨hn, hns⟩ := List.forall_mem_cons.mp h
    have htext : furtherNames (n :: ns) ++ rest =
        '.' :: (n.toList ++ (furtherNames ns ++ rest)) := by simp [furtherNames]
    obtain ⟨d, p₁, h₁, hd⟩ := lexFrom_mark (c := '.') rfl position
      (n.toList ++ (furtherNames ns ++ rest))
    obtain ⟨t, p₂, h₂, ht⟩ := lexFrom_identifier hn p₁ _ (head?_furtherNames hrest)
    obtain ⟨ts, p₃, h₃, hts⟩ := ih hns p₂ rest hrest
    exact ⟨d :: t :: ts, p₃, by rw [htext, h₁, h₂, h₃]; rfl, .nameTail hd ht hts⟩

theorem isReadAs_name {n : String} {ns : List String}
    (h : ∀ m ∈ n :: ns, DottedName.isIdentifier m.toList = true ∧ m ∉ ["new", "static"]) :
    IsReadAs (DottedName.join (n :: ns)).toList .name (.names (n :: ns)) := by
  intro position rest hrest
  obtain ⟨hn, hns⟩ := List.forall_mem_cons.mp h
  have htext : (DottedName.join (n :: ns)).toList ++ rest =
      n.toList ++ (furtherNames ns ++ rest) := by
    rw [DottedName.join, toList_intercalate_cons, List.append_assoc]
    rfl
  obtain ⟨t, p₁, h₁, ht⟩ := lexFrom_identifier hn position _ (head?_furtherNames hrest)
  obtain ⟨ts, p₂, h₂, hts⟩ := isReadAs_nameTail hns p₁ rest hrest
  exact ⟨t :: ts, p₂, by rw [htext, h₁, h₂]; rfl, .name ht hts⟩

theorem lexFrom_keyword {word : String} {k : Kind} (hi : DottedName.isIdentifier word.toList = true)
    (hd : decode? .symbol word.toList = some (k, none)) (position : Nat) (rest : List Char) :
    ∃ t position', lexFrom position (word.toList ++ ' ' :: rest) = t :: lexFrom position' rest ∧
      t.kind = k := by
  obtain ⟨t, p, h, hk, -⟩ := lexFrom_lexeme (isLexeme_of_isIdentifier hi) (by decide) hd position
    (' ' :: rest) (by rintro _ ⟨⟩; decide)
  exact ⟨t, _, by rw [h, lexFrom_blank rfl], hk⟩

theorem lexFrom_new (position : Nat) (rest : List Char) :
    ∃ t position', lexFrom position ("new".toList ++ ' ' :: rest) = t :: lexFrom position' rest ∧
      t.kind = .new :=
  lexFrom_keyword (by decide) (by decide) position rest

theorem lexFrom_static (position : Nat) (rest : List Char) :
    ∃ t position', lexFrom position ("static".toList ++ ' ' :: rest) =
      t :: lexFrom position' rest ∧ t.kind = .static :=
  lexFrom_keyword (by decide) (by decide) position rest

/-! ### Expressions -/

theorem isReadAs_literal {l : Literal} (h : l.IsPrintable) :
    IsReadAs l.text.toList .literal (.expr (.constant l)) := by
  intro position rest hrest
  obtain ⟨k, hk, hl, hd⟩ := h
  have hb : k ≠ .blank := by
    rintro rfl
    exact absurd hk (by decide)
  obtain ⟨t, p, h, hkind, hp⟩ := lexFrom_lexeme hl hb hd position rest fun c hc =>
    ⟨(hrest c hc).1, .inl (hrest c hc).2⟩
  refine ⟨[t], p, h, .literal (.inr ⟨?_, l, hp, rfl⟩)⟩
  rw [hkind]
  simp only [List.mem_cons, List.not_mem_nil, or_false] at hk ⊢
  tauto

theorem isReadAs_result {i : Nat} (h : IsIndex i) :
    IsReadAs ("$" ++ toString i).toList .literal (.expr (.result i)) := by
  intro position rest hrest
  obtain ⟨n, hn⟩ := h
  obtain ⟨hl, hd⟩ := isLexeme_result hn
  obtain ⟨t, p, h, hkind, hp⟩ := lexFrom_lexeme hl (by decide) hd position rest fun c hc =>
    ⟨(hrest c hc).1, .inl (hrest c hc).2⟩
  exact ⟨[t], p, h, .literal (.inl ⟨hkind, n, i, hp, hn, rfl⟩)⟩

def furtherArgs (es : List Template) : List Char :=
  es.flatMap fun e => ", ".toList ++ e.text.toList

theorem separated_furtherArgs {rest : List Char} (h : Separated rest) (es : List Template) :
    Separated (furtherArgs es ++ rest) :=
  separated_flatMap (c := ',') (fun _ => rfl) (by decide) h es

theorem isReadAs_argsTail {es : List Template}
    (h : ∀ e ∈ es, IsReadAs e.text.toList .expr (.expr e)) :
    IsReadAs (furtherArgs es) .argsTail (.exprs es) := by
  induction es with
  | nil => exact fun position rest _ => ⟨[], position, rfl, .noArgsTail⟩
  | cons e es ih =>
    intro position rest hrest
    obtain ⟨he, hes⟩ := List.forall_mem_cons.mp h
    have htext : furtherArgs (e :: es) ++ rest =
        ',' :: ' ' :: (e.text.toList ++ (furtherArgs es ++ rest)) := by simp [furtherArgs]
    obtain ⟨c, p₁, h₁, hc⟩ := lexFrom_mark (c := ',') rfl position
      (' ' :: (e.text.toList ++ (furtherArgs es ++ rest)))
    obtain ⟨ts, p₂, h₂, hts⟩ := he (p₁ + byteSize [' ']) _ (separated_furtherArgs hrest es)
    obtain ⟨us, p₃, h₃, hus⟩ := ih hes p₂ rest hrest
    refine ⟨c :: (ts ++ us), p₃, ?_, .argsTail hc hts hus⟩
    rw [htext, h₁, lexFrom_blank rfl, h₂, h₃]
    simp

theorem isReadAs_args {es : List Template}
    (h : ∀ e ∈ es, IsReadAs e.text.toList .expr (.expr e)) :
    IsReadAs (", ".intercalate (es.map Template.text)).toList .args (.exprs es) := by
  cases es with
  | nil => exact fun position rest _ => ⟨[], position, rfl, .noArgs⟩
  | cons e es =>
    intro position rest hrest
    obtain ⟨he, hes⟩ := List.forall_mem_cons.mp h
    have htext : (", ".intercalate ((e :: es).map Template.text)).toList ++ rest =
        e.text.toList ++ (furtherArgs es ++ rest) := by
      rw [List.map_cons, toList_intercalate_cons, List.flatMap_map, List.append_assoc, furtherArgs]
    obtain ⟨ts, p₁, h₁, hts⟩ := he position _ (separated_furtherArgs hrest es)
    obtain ⟨us, p₂, h₂, hus⟩ := isReadAs_argsTail hes p₁ rest hrest
    refine ⟨ts ++ us, p₂, ?_, .args hts hus⟩
    rw [htext, h₁, h₂, List.append_assoc]

theorem lexFrom_call {ns : List String} {es : List Template} (hne : ns ≠ [])
    (hns : ∀ n ∈ ns, DottedName.isIdentifier n.toList = true ∧ n ∉ ["new", "static"])
    (hes : ∀ e ∈ es, IsReadAs e.text.toList .expr (.expr e)) (position : Nat) (rest : List Char) :
    ∃ ts l us r position',
      lexFrom position ((DottedName.join ns).toList ++
        '(' :: ((", ".intercalate (es.map Template.text)).toList ++ ')' :: rest)) =
          (ts ++ l :: (us ++ [r])) ++ lexFrom position' rest ∧
      Writes Token.alphabet .name ts (.names ns) ∧ l.kind = .leftParen ∧
      Writes Token.alphabet .args us (.exprs es) ∧ r.kind = .rightParen := by
  obtain ⟨n, ns, rfl⟩ := List.exists_cons_of_ne_nil hne
  obtain ⟨ts, p₁, h₁, hts⟩ := isReadAs_name hns position
    ('(' :: ((", ".intercalate (es.map Template.text)).toList ++ ')' :: rest))
    (separated_cons (by decide) _)
  obtain ⟨l, p₂, h₂, hl⟩ := lexFrom_mark (c := '(') rfl p₁
    ((", ".intercalate (es.map Template.text)).toList ++ ')' :: rest)
  obtain ⟨us, p₃, h₃, hus⟩ := isReadAs_args hes p₂ (')' :: rest) (separated_cons (by decide) _)
  obtain ⟨r, p₄, h₄, hr⟩ := lexFrom_mark (c := ')') rfl p₃ rest
  refine ⟨ts, l, us, r, p₄, ?_, hts, hl, hus, hr⟩
  rw [h₁, h₂, h₃, h₄]
  simp

theorem isReadAs_keywordCall {word : String} {k : Kind} {ns : List String} {es : List Template}
    {e : Template}
    (hword : ∀ position rest, ∃ t position',
      lexFrom position (word.toList ++ ' ' :: rest) = t :: lexFrom position' rest ∧ t.kind = k)
    (hwrites : ∀ {t l r : Token} {ts us : List Token}, Token.alphabet.kind t = k →
      Writes Token.alphabet .name ts (.names ns) → Token.alphabet.kind l = .leftParen →
      Writes Token.alphabet .args us (.exprs es) → Token.alphabet.kind r = .rightParen →
      Writes Token.alphabet .expr (t :: (ts ++ l :: (us ++ [r]))) (.expr e))
    (htext : e.text = word ++ " " ++ DottedName.join ns ++ "(" ++
      ", ".intercalate (es.map Template.text) ++ ")")
    (hne : ns ≠ [])
    (hns : ∀ n ∈ ns, DottedName.isIdentifier n.toList = true ∧ n ∉ ["new", "static"])
    (hes : ∀ e ∈ es, IsReadAs e.text.toList .expr (.expr e)) :
    IsReadAs e.text.toList .expr (.expr e) := by
  intro position rest _
  have htext : e.text.toList ++ rest = word.toList ++ ' ' :: ((DottedName.join ns).toList ++
      '(' :: ((", ".intercalate (es.map Template.text)).toList ++ ')' :: rest)) := by
    rw [htext]
    simp
  obtain ⟨t, p₁, h₁, ht⟩ := hword position ((DottedName.join ns).toList ++
    '(' :: ((", ".intercalate (es.map Template.text)).toList ++ ')' :: rest))
  obtain ⟨ts, l, us, r, p₂, h₂, hts, hl, hus, hr⟩ := lexFrom_call hne hns hes p₁ rest
  refine ⟨t :: (ts ++ l :: (us ++ [r])), p₂, ?_, hwrites ht hts hl hus hr⟩
  rw [htext, h₁, h₂]
  rfl

theorem isReadAs_expr {t : Template} (h : t.IsPrintable) :
    IsReadAs t.text.toList .expr (.expr t) := by
  unfold Template.IsPrintable at h
  induction h with
  | constant hl =>
    intro position rest hrest
    obtain ⟨ts, p, h, hts⟩ := isReadAs_literal hl position rest hrest
    exact ⟨ts, p, h, .exprLiteral hts⟩
  | result hi =>
    intro position rest hrest
    obtain ⟨ts, p, h, hts⟩ := isReadAs_result hi position rest hrest
    exact ⟨ts, p, h, .exprLiteral hts⟩
  | construct ht _ ih =>
    obtain ⟨ns, hne, hns, rfl⟩ := ht
    refine isReadAs_keywordCall lexFrom_new .construct ?_ hne hns ih
    rw [Template.text, Expr.print, Expr.printAll_eq_map]
    rfl
  | static hm _ ih =>
    obtain ⟨ns, hne, hns, rfl⟩ := hm
    refine isReadAs_keywordCall lexFrom_static .static ?_ hne hns ih
    rw [Template.text, Expr.print, Expr.printAll_eq_map]
    rfl
  | @invoke m receiver args hm _ _ ihr ih =>
    intro position rest _
    obtain ⟨ns, hne, hns, rfl⟩ := hm
    obtain ⟨n, ns, rfl⟩ := List.exists_cons_of_ne_nil hne
    have htext : (Template.text (.invoke (DottedName.join (n :: ns)) receiver args)).toList ++
        rest = (DottedName.join (n :: ns)).toList ++
          '(' :: ((Template.text receiver).toList ++ (furtherArgs args ++ ')' :: rest)) := by
      simp only [Template.text, Expr.print, Expr.printAll_eq_map, String.toList_append,
        toList_intercalate_cons, List.flatMap_map, List.append_assoc, furtherArgs]
      rfl
    obtain ⟨ts, p₁, h₁, hts⟩ := isReadAs_name hns position
      ('(' :: ((Template.text receiver).toList ++ (furtherArgs args ++ ')' :: rest)))
      (separated_cons (by decide) _)
    obtain ⟨l, p₂, h₂, hl⟩ := lexFrom_mark (c := '(') rfl p₁
      ((Template.text receiver).toList ++ (furtherArgs args ++ ')' :: rest))
    have hparen : Separated (')' :: rest) := separated_cons (by decide) rest
    obtain ⟨us, p₃, h₃, hus⟩ := ihr p₂ _ (separated_furtherArgs hparen args)
    obtain ⟨vs, p₄, h₄, hvs⟩ := isReadAs_argsTail ih p₃ (')' :: rest) hparen
    obtain ⟨r, p₅, h₅, hr⟩ := lexFrom_mark (c := ')') rfl p₄ rest
    refine ⟨ts ++ l :: (us ++ (vs ++ [r])), p₅, ?_, .invoke hts hl hus hvs hr⟩
    rw [htext, h₁, h₂, h₃, h₄, h₅]
    simp

/-! ### Rules -/

def actionText (es : List Template) : List Char :=
  es.flatMap fun e => ' ' :: (e.text.toList ++ [';'])

theorem isReadAs_exprs {es : List Template} (h : ∀ e ∈ es, e.IsPrintable) :
    IsReadAs (actionText es) .exprs (.exprs es) := by
  induction es with
  | nil => exact fun position rest _ => ⟨[], position, rfl, .noExprs⟩
  | cons e es ih =>
    intro position rest hrest
    obtain ⟨he, hes⟩ := List.forall_mem_cons.mp h
    have htext : actionText (e :: es) ++ rest =
        ' ' :: (e.text.toList ++ ';' :: (actionText es ++ rest)) := by simp [actionText]
    obtain ⟨ts, p₁, h₁, hts⟩ := isReadAs_expr he (position + byteSize [' '])
      (';' :: (actionText es ++ rest))
      (separated_cons (by decide) _)
    obtain ⟨s, p₂, h₂, hs⟩ := lexFrom_mark (c := ';') rfl p₁
      (actionText es ++ rest)
    obtain ⟨us, p₃, h₃, hus⟩ := ih hes p₂ rest hrest
    refine ⟨ts ++ s :: us, p₃, ?_, .exprs hts hs hus⟩
    rw [htext, lexFrom_blank rfl, h₁, h₂, h₃]
    simp

def symbolsText (ns : List String) : List Char :=
  ns.flatMap fun n => ' ' :: (Grammar.symbolText n).toList

theorem isReadAs_symbols {ns : List String} (h : ∀ n ∈ ns, IsSymbolName n) :
    IsReadAs (symbolsText ns) .symbols (.names ns) := by
  induction ns with
  | nil => exact fun position rest _ => ⟨[], position, rfl, .noSymbols⟩
  | cons n ns ih =>
    intro position rest hrest
    obtain ⟨hn, hns⟩ := List.forall_mem_cons.mp h
    obtain ⟨hl, hd⟩ := hn.lexeme
    have htext : symbolsText (n :: ns) ++ rest =
        ' ' :: ((Grammar.symbolText n).toList ++ (symbolsText ns ++ rest)) := by simp [symbolsText]
    have hsep : Separated (symbolsText ns ++ rest) :=
      separated_flatMap (c := ' ') (fun _ => rfl) (by decide) hrest ns
    obtain ⟨t, p₁, h₁, ht⟩ := lexFrom_lexeme hl (by decide) hd (position + byteSize [' ']) _
      fun c hc => ⟨(hsep c hc).1, .inr rfl⟩
    obtain ⟨ts, p₂, h₂, hts⟩ := ih hns p₁ rest hrest
    refine ⟨t :: ts, p₂, ?_, .symbols ht hts⟩
    rw [htext, lexFrom_blank rfl, h₁, h₂]
    rfl

theorem lexFrom_rule {r : RuleDecl} (h : r.IsPrintable) (position : Nat) (rest : List Char) :
    ∃ ts position', lexFrom position (r.text.toList ++ rest) = ts ++ lexFrom position' rest ∧
      Writes Token.alphabet .rule ts (.rule r) := by
  have htext : r.text.toList ++ rest = r.nonTerminal.toList ++ ' ' :: ':' ::
      (symbolsText r.symbols ++
        ' ' :: '\x7b' :: (actionText r.action ++ ' ' :: '\x7d' :: '\n' :: rest)) := by
    simp [RuleDecl.text, List.flatMap_map, symbolsText, actionText]
  obtain ⟨t, p₁, h₁, ht⟩ := lexFrom_identifier h.nonTerminal position
    (' ' :: ':' :: (symbolsText r.symbols ++ ' ' :: '\x7b' ::
      (actionText r.action ++ ' ' :: '\x7d' :: '\n' :: rest))) (by rintro _ ⟨⟩; decide)
  obtain ⟨c, p₂, h₂, hc⟩ := lexFrom_mark (c := ':') rfl (p₁ + byteSize [' '])
    (symbolsText r.symbols ++
      ' ' :: '\x7b' :: (actionText r.action ++ ' ' :: '\x7d' :: '\n' :: rest))
  obtain ⟨ts, p₃, h₃, hts⟩ := isReadAs_symbols h.symbols p₂
    (' ' :: '\x7b' :: (actionText r.action ++ ' ' :: '\x7d' :: '\n' :: rest))
    (separated_cons (by decide) _)
  obtain ⟨l, p₄, h₄, hl⟩ := lexFrom_mark (c := '\x7b') rfl (p₃ + byteSize [' '])
    (actionText r.action ++ ' ' :: '\x7d' :: '\n' :: rest)
  obtain ⟨us, p₅, h₅, hus⟩ := isReadAs_exprs h.action p₄ (' ' :: '\x7d' :: '\n' :: rest)
    (separated_cons (by decide) _)
  obtain ⟨m, p₆, h₆, hm⟩ := lexFrom_mark (c := '\x7d') rfl (p₅ + byteSize [' ']) ('\n' :: rest)
  refine ⟨t :: c :: (ts ++ l :: (us ++ [m])), p₆ + byteSize ['\n'], ?_,
    .rule ht hc hts hl hus hm⟩
  rw [htext, h₁, lexFrom_blank rfl, h₂, h₃, lexFrom_blank rfl, h₄, h₅, lexFrom_blank rfl, h₆,
    lexFrom_blank rfl]
  simp

theorem writes_rules {rs : List RuleDecl} (h : ∀ r ∈ rs, r.IsPrintable) (position : Nat) :
    Writes Token.alphabet .rules (lexFrom position (rs.flatMap fun r => r.text.toList))
      (.grammar ⟨rs, none⟩) := by
  induction rs generalizing position with
  | nil => exact .noRules
  | cons r rs ih =>
    obtain ⟨hr, hrs⟩ := List.forall_mem_cons.mp h
    obtain ⟨ts, position', hlex, hts⟩ := lexFrom_rule hr position
      (rs.flatMap fun r => r.text.toList)
    rw [List.flatMap_cons, hlex]
    exact .rules hts (ih hrs position')

/-- The texts of rules declare these rules, the first one's nonterminal as the start. -/
theorem declares_text {r : RuleDecl} {rs : List RuleDecl} (h : ∀ x ∈ r :: rs, x.IsPrintable) :
    Declares (lex (String.join ((r :: rs).map RuleDecl.text)))
      ⟨r :: rs, some r.nonTerminal⟩ := by
  obtain ⟨hr, hrs⟩ := List.forall_mem_cons.mp h
  have htext : (String.join ((r :: rs).map RuleDecl.text)).toList =
      r.text.toList ++ rs.flatMap fun r => r.text.toList := by simp [List.flatMap_map]
  obtain ⟨ts, position, hlex, hts⟩ := lexFrom_rule hr 0 (rs.flatMap fun r => r.text.toList)
  rw [lex_eq, htext, hlex]
  exact .grammar hts (writes_rules hrs position)

theorem Writes.ne_garbage {ph : Phrase} {ts : List Token} {p : Part}
    (h : Writes Token.alphabet ph ts p) : ∀ t ∈ ts, t.kind ≠ .garbage := by
  induction h with
  | literal ht =>
    refine List.forall_mem_singleton.mpr ?_
    rcases ht with ⟨hk, -⟩ | ⟨hk, -⟩ <;> intro hg <;> rw [hg] at hk <;> exact absurd hk (by decide)
  | _ => simp_all [Token.alphabet, or_imp]

end GrammarText

end ActionGrammar
