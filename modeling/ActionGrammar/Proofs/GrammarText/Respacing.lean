import ActionGrammar.Proofs.GrammarText.Garbage
import ActionGrammar.Proofs.GrammarText.RoundTrip
import ActionGrammar.Proofs.GrammarText.Unexpected
import ActionGrammar.Proofs.GrammarText.Verbatim
import ActionGrammar.Proofs.Parse.Interchange

/-! # Blanks between tokens

A text that is one token stays this token behind and in front of blanks, however many
there are. What a token is depends on its own text alone, so texts with the same tokens
in a row are read alike, however they are spaced.
-/

namespace ActionGrammar.GrammarText

open Progress

/-- The text is one token, which is no garbage and goes from its beginning to its end. -/
structure IsTokenText (text : String) (t : Token) : Prop where
  lex_eq : lex text = [t]
  notGarbage : t.kind ≠ .garbage
  start : t.start = 0
  stop : t.stop = text.utf8ByteSize

def tokenTexts (source : String) : List String := (lex source).map fun t => t.text source

/-! ### What a token is made of -/

theorem IsLexeme.unique {k k' : Kind} {cs : List Char} (h : IsLexeme k cs) (h' : IsLexeme k' cs) :
    k = k' := by
  obtain ⟨p, hrun, hp⟩ := h
  obtain ⟨q, hrun', hq⟩ := h'
  obtain rfl : p = q := Option.some.inj (hrun.symm.trans hrun')
  exact Option.some.inj (hp.symm.trans hq)

theorem ne_blank_of_decode? {k k' : Kind} {cs : List Char} {payload : Option Literal}
    (h : decode? k cs = some (k', payload)) : k ≠ .blank ↔ k' ≠ .blank := by
  rcases kind_of_decode? h with rfl | ⟨rfl, rfl | rfl⟩ | ⟨rfl, rfl⟩ <;> simp

theorem ne_blank_of_mem_tokensFrom {position : Nat} {pending : Option Nat} {ss : List Slice}
    {t : Token} (h : t ∈ tokensFrom position pending ss) : t.kind ≠ .blank := by
  have hclose {pending : Option Nat} {stop : Nat} (h : t ∈ close pending stop) :
      t.kind ≠ .blank := by
    obtain ⟨start, rfl⟩ := eq_garbage_of_mem_close h
    exact nofun
  induction ss generalizing position pending with
  | nil => exact hclose h
  | cons s ss ih =>
    rw [tokensFrom_cons] at h
    rcases List.mem_append.mp h with h | h
    · unfold Slice.tokens at h
      split at h
      · exact nomatch h
      · exact hclose h
      · rename_i k hk _
        rcases List.mem_append.mp h with h | h
        · exact hclose h
        · obtain ⟨x, hx, rfl⟩ := List.mem_map.mp h
          exact (ne_blank_of_decode? (Option.mem_toList.mp hx)).mp hk
    · exact ih h

theorem ne_blank_of_mem_lex {source : String} {t : Token} (h : t ∈ lex source) :
    t.kind ≠ .blank := ne_blank_of_mem_tokensFrom h

theorem isTokenText_of_mem_lex {source : String} {t : Token} (h : t ∈ lex source)
    (hg : t.kind ≠ .garbage) :
    IsTokenText (t.text source) ⟨t.kind, 0, (t.text source).utf8ByteSize, t.payload⟩ := by
  obtain ⟨k, ⟨p, hrun, hp⟩, hd⟩ := exists_text_of_mem_lex h hg
  have hb : k ≠ .blank := (ne_blank_of_decode? hd).mpr (ne_blank_of_mem_lex h)
  have hlex := lexFrom_append hrun hp hb hd 0 [] fun c hc => nomatch hc
  rw [List.append_nil, ← lex_eq, byteSize_toList, Nat.zero_add] at hlex
  exact ⟨hlex, hg, rfl, rfl⟩

theorem IsTokenText.exists_lexeme {text : String} {t : Token} (h : IsTokenText text t) :
    ∃ k, k ≠ .blank ∧ IsLexeme k text.toList ∧
      decode? k text.toList = some (t.kind, t.payload) := by
  have hmem : t ∈ lex text := h.lex_eq ▸ List.mem_singleton_self t
  have htext : t.text text = text := by
    have hcut : text.toList = [] ++ (text.toList ++ []) := by simp
    have hwhole := textBetween_eq hcut
    rw [byteSize_toList, String.ofList_toList] at hwhole
    simpa [Token.text, h.start, h.stop, byteSize] using hwhole
  obtain ⟨k, hl, hd⟩ := exists_text_of_mem_lex hmem h.notGarbage
  rw [htext] at hl hd
  exact ⟨k, (ne_blank_of_decode? hd).mpr (ne_blank_of_mem_lex hmem), hl, hd⟩

/-! ### No garbage is written like a token -/

theorem slices_of_append {cs : List Char} {before ss : List Slice} (h : slices cs = before ++ ss) :
    slices (ss.flatMap Slice.chars) = ss := by
  induction before generalizing cs with
  | nil =>
    have hchars : ss.flatMap Slice.chars = cs := by
      rw [← flatMap_chars_slices cs, h, List.nil_append]
    rw [hchars, h, List.nil_append]
  | cons s before ih =>
    cases cs with
    | nil => exact nomatch h
    | cons c cs =>
      rw [slices, slicesAfter, slicesAfter_eq] at h
      exact ih (List.cons.inj h).2

theorem firstSlice_of_slices {cs : List Char} {s : Slice} {ss : List Slice}
    (h : slices cs = s :: ss) : s = firstSlice cs := by
  cases cs with
  | nil => exact nomatch h
  | cons c cs =>
    rw [slices, slicesAfter] at h
    exact (List.cons.inj h).1.symm

theorem not_isTokenText_of_garbage {source : String} {t u : Token} (h : t ∈ lex source)
    (hg : t.kind = .garbage) : ¬ IsTokenText (t.text source) u := by
  intro hu
  obtain ⟨k, -, hl, hd⟩ := hu.exists_lexeme
  rw [eq_garbage h hg, garbage_mem_lex_iff] at h
  obtain ⟨before, s, run, rest, hcut, hopens, hstart, hstop, -⟩ := h
  have htext : (t.text source).toList = (s :: run).flatMap Slice.chars := by
    have hsource : source.toList = before.flatMap Slice.chars ++
        ((s :: run).flatMap Slice.chars ++ rest.flatMap Slice.chars) := by
      rw [← flatMap_chars_slices source.toList, hcut]
      simp
    rw [Token.text, hstart, hstop, textSize_append, textSize, textSize, textBetween_eq hsource,
      String.toList_ofList]
  -- The slice at the beginning of the garbage takes the lexeme in, so it is all of the garbage.
  have hfirst : s = firstSlice ((t.text source).toList ++ rest.flatMap Slice.chars) := by
    have hbehind : slices source.toList = before ++ s :: (run ++ rest) := by simpa using hcut
    rw [htext, ← List.flatMap_append]
    exact firstSlice_of_slices (slices_of_append hbehind)
  obtain ⟨⟨k', hk'⟩, hprefix⟩ := isPrefix_firstSlice hl (rest.flatMap Slice.chars)
  rw [← hfirst] at hk' hprefix
  have hchars : s.chars = (t.text source).toList := by
    apply List.IsPrefix.eq_of_length_le _ hprefix.length_le
    rw [htext, List.flatMap_cons]
    exact List.prefix_append _ _
  have hs : s ∈ slices source.toList := by simp [hcut]
  obtain rfl : k' = k := (isLexeme_of_mem_slices hs hk').unique (hchars ▸ hl)
  have hnone := hopens.malformed k' hk'
  rw [hchars, hd] at hnone
  contradiction

/-! ### Tokens are known by their texts -/

theorem content_eq_of_isTokenText {source : String} {t : Token} (h : t ∈ lex source)
    (hg : t.kind ≠ .garbage) : (lex (t.text source)).map Token.content = [t.content] := by
  rw [(isTokenText_of_mem_lex h hg).lex_eq]
  rfl

/-- What the tokens of a text without garbage are can be told from their texts alone. -/
theorem map_content_lex {source : String} (hg : ∀ t ∈ lex source, t.kind ≠ .garbage) :
    (lex source).map Token.content =
      (tokenTexts source).flatMap fun text => (lex text).map Token.content := by
  rw [tokenTexts, List.flatMap_map, List.map_eq_flatMap]
  apply List.flatMap_congr
  intro t ht
  exact (content_eq_of_isTokenText ht (hg t ht)).symm

theorem forall₂_tokenTexts {source : String} (hg : ∀ t ∈ lex source, t.kind ≠ .garbage) :
    (tokenTexts source).Forall₂ IsTokenText
      ((lex source).map fun t => ⟨t.kind, 0, (t.text source).utf8ByteSize, t.payload⟩) := by
  rw [tokenTexts, List.forall₂_map_left_iff, List.forall₂_map_right_iff, List.forall₂_same]
  exact fun t ht => isTokenText_of_mem_lex ht (hg t ht)

theorem ne_garbage_of_tokenTexts_eq {source source' : String}
    (hg : ∀ t ∈ lex source, t.kind ≠ .garbage) (h : tokenTexts source' = tokenTexts source) :
    ∀ t ∈ lex source', t.kind ≠ .garbage := by
  intro t ht hgarbage
  have hmem : t.text source' ∈ tokenTexts source := h ▸ List.mem_map_of_mem ht
  obtain ⟨u, hu, htext⟩ := List.mem_map.mp hmem
  have hword := isTokenText_of_mem_lex hu (hg u hu)
  rw [htext] at hword
  exact not_isTokenText_of_garbage ht hgarbage hword

/-! ### Reading -/

theorem interchangeable_of_content_eq {t u : Token} (h : t.content = u.content) :
    Interchangeable (Payload Empty) t u := by
  obtain ⟨hk, hp⟩ := Prod.mk.inj h
  constructor
  · intro r
    change (r.kind == t.kind) = (r.kind == u.kind)
    rw [hk]
  · change pure (t.payload.map Literal.toValue) = pure (u.payload.map Literal.toValue)
    rw [hp]

theorem forall₂_interchangeable {ts us : List Token}
    (h : ts.map Token.content = us.map Token.content) :
    ts.Forall₂ (Interchangeable (Payload Empty)) us := by
  have hcontent : (ts.map Token.content).Forall₂ Eq (us.map Token.content) :=
    h ▸ List.forall₂_refl _
  rw [List.forall₂_map_left_iff, List.forall₂_map_right_iff] at hcontent
  exact hcontent.imp fun _ _ => interchangeable_of_content_eq

theorem read_of_content_eq {types : PartTypes} {source source' : String} {d : GrammarDecl}
    (h : read types source = .ok d)
    (hcontent : (lex source').map Token.content = (lex source).map Token.content) :
    read types source' = .ok d := by
  have hg := (read_eq_ok_iff.mp h).1
  have hg' : ∀ t ∈ lex source', t.kind ≠ .garbage := by
    have hkinds := map_kind_eq hcontent
    intro t ht hgarbage
    have hmem : Kind.garbage ∈ (lex source).map Token.kind :=
      hkinds ▸ hgarbage ▸ List.mem_map_of_mem ht
    obtain ⟨u, hu, hugarbage⟩ := List.mem_map.mp hmem
    exact hg u hu hugarbage
  unfold read at h ⊢
  rw [parser_eq_ok] at h ⊢
  have hparse : (reader types).parse (lex source').toArray =
      (reader types).parse (lex source).toArray :=
    Parser.parse_congr (forall₂_interchangeable hcontent)
  simp only [firstGarbage?_eq_none_iff.mpr hg, firstGarbage?_eq_none_iff.mpr hg', hparse] at h ⊢
  split at h
  · exact nomatch h
  · exact h

theorem read_of_tokenTexts_eq {types : PartTypes} {source source' : String} {d : GrammarDecl}
    (h : read types source = .ok d) (htexts : tokenTexts source' = tokenTexts source) :
    read types source' = .ok d := by
  have hg := (read_eq_ok_iff.mp h).1
  apply read_of_content_eq h
  rw [map_content_lex hg, map_content_lex (ne_garbage_of_tokenTexts_eq hg htexts), htexts]

/-! ### Texts in a row -/

def IsBlankText (gap : String) : Prop := ∀ c ∈ gap.toList, c ∈ [' ', '\t', '\r', '\n', '\x0c']

instance (gap : String) : Decidable (IsBlankText gap) := List.decidableBAll ..

/-- Texts in a row, each one behind its gap, and what stands behind the last one. -/
def spaced (items : List (String × String)) (trail : String) : String :=
  String.join (items.map fun x => x.1 ++ x.2) ++ trail

/-- The gaps are blank, and there is a gap wherever two texts meet. -/
structure IsSpacing (items : List (String × String)) (trail : String) : Prop where
  gaps : ∀ x ∈ items, IsBlankText x.1
  trail : IsBlankText trail
  apart : ∀ x ∈ items.tail, x.1 ≠ ""

theorem IsBlankText.forall_isBlank {gap : String} (h : IsBlankText gap) :
    ∀ c ∈ gap.toList, isBlank c = true := fun c hc => by
  simpa [isBlank, or_assoc] using h c hc

theorem toList_spaced_cons (x : String × String) (items : List (String × String))
    (trail : String) :
    (spaced (x :: items) trail).toList =
      x.1.toList ++ (x.2.toList ++ (spaced items trail).toList) := by
  simp [spaced, String.join_cons, List.append_assoc]

namespace IsSpacing

variable {x : String × String} {items : List (String × String)} {trail : String}

theorem tail (h : IsSpacing (x :: items) trail) : IsSpacing items trail where
  gaps := fun y hy => h.gaps y (List.mem_cons_of_mem x hy)
  trail := h.trail
  apart := fun y hy => h.apart y (List.mem_of_mem_tail hy)

theorem head?_isBlank (h : IsSpacing (x :: items) trail) :
    ∀ c ∈ (spaced items trail).toList.head?, isBlank c = true := by
  intro c hc
  cases items with
  | nil =>
    have hchars : (spaced [] trail).toList = trail.toList := by simp [spaced]
    rw [hchars] at hc
    exact h.trail.forall_isBlank c (List.mem_of_mem_head? hc)
  | cons y items =>
    have hgap : y.1.toList ≠ [] := by
      simpa using h.apart y List.mem_cons_self
    rw [toList_spaced_cons, List.head?_append_of_ne_nil _ hgap] at hc
    have hy : IsBlankText y.1 := h.gaps y (by simp)
    exact hy.forall_isBlank c (List.mem_of_mem_head? hc)

end IsSpacing

theorem lexFrom_blanks {gap : List Char} (h : ∀ c ∈ gap, isBlank c = true) (position : Nat)
    (cs : List Char) :
    lexFrom position (gap ++ cs) = lexFrom (position + byteSize gap) cs := by
  induction gap generalizing position with
  | nil => rfl
  | cons c gap ih =>
    obtain ⟨hc, hgap⟩ := List.forall_mem_cons.mp h
    rw [List.cons_append, lexFrom_blank hc, ih hgap]
    simp [byteSize, Nat.add_assoc]

theorem lexFrom_tokenText {text : String} {t : Token} (h : IsTokenText text t) (position : Nat)
    {rest : List Char} (hrest : ∀ c ∈ rest.head?, isBlank c = true) :
    lexFrom position (text.toList ++ rest) =
      ⟨t.kind, position, position + byteSize text.toList, t.payload⟩ ::
        lexFrom (position + byteSize text.toList) rest := by
  obtain ⟨k, hb, ⟨p, hrun, hp⟩, hd⟩ := h.exists_lexeme
  apply lexFrom_append hrun hp hb hd
  intro c hc
  have hblank := hrest c hc
  simp only [isBlank, Bool.or_eq_true, beq_iff_eq] at hblank
  apply step_eq_none hp hb
  · rcases hblank with (((rfl | rfl) | rfl) | rfl) | rfl <;> decide
  · left
    rcases hblank with (((rfl | rfl) | rfl) | rfl) | rfl <;> decide

theorem lexFrom_spaced {items : List (String × String)} {trail : String}
    (h : IsSpacing items trail) {ts : List Token}
    (hts : (items.map Prod.snd).Forall₂ IsTokenText ts) {source : String} {front : List Char}
    (hsource : source.toList = front ++ (spaced items trail).toList) :
    (lexFrom (byteSize front) (spaced items trail).toList).map Token.content =
        ts.map Token.content ∧
      (lexFrom (byteSize front) (spaced items trail).toList).map (fun t => t.text source) =
        items.map Prod.snd := by
  induction items generalizing ts front with
  | nil =>
    cases hts
    have hlex := lexFrom_blanks h.trail.forall_isBlank (byteSize front) []
    have hchars : (spaced [] trail).toList = trail.toList ++ [] := by simp [spaced]
    rw [hchars, hlex]
    exact ⟨rfl, rfl⟩
  | cons x items ih =>
    obtain _ | ⟨ht, hts⟩ := hts
    rename_i t ts
    rw [toList_spaced_cons] at hsource ⊢
    have hgap := (h.gaps x List.mem_cons_self).forall_isBlank
    have hbehind : source.toList =
        (front ++ x.1.toList ++ x.2.toList) ++ (spaced items trail).toList := by
      simpa using hsource
    have hcut : source.toList =
        (front ++ x.1.toList) ++ (x.2.toList ++ (spaced items trail).toList) := by
      simpa using hsource
    obtain ⟨hcontent, htexts⟩ := ih h.tail hts hbehind
    rw [byteSize_append] at hcontent htexts
    rw [lexFrom_blanks hgap, ← byteSize_append, lexFrom_tokenText ht _ h.head?_isBlank]
    constructor
    · rw [List.map_cons, List.map_cons, hcontent]
      rfl
    · have htext := textBetween_eq hcut
      rw [String.ofList_toList] at htext
      rw [List.map_cons, List.map_cons, htexts, Token.text, htext]

/-- The tokens of texts with blanks between them are those of the texts one by one, with the texts
as theirs. So a text that is read is read alike in every spacing of its tokens, and so is any text
whose tokens have the same texts. -/
theorem lex_respaced :
    (∀ items trail ts, IsSpacing items trail → (items.map Prod.snd).Forall₂ IsTokenText ts →
      (lex (spaced items trail)).map Token.content = ts.map Token.content ∧
      tokenTexts (spaced items trail) = items.map Prod.snd) ∧
    ∀ types source d, read types source = .ok d →
      (∀ items trail, IsSpacing items trail → items.map Prod.snd = tokenTexts source →
        read types (spaced items trail) = .ok d) ∧
      ∀ source', tokenTexts source' = tokenTexts source → read types source' = .ok d := by
  have hlex items trail ts (h : IsSpacing items trail)
      (hts : (items.map Prod.snd).Forall₂ IsTokenText ts) :
      (lex (spaced items trail)).map Token.content = ts.map Token.content ∧
      tokenTexts (spaced items trail) = items.map Prod.snd := by
    have hwhole : (spaced items trail).toList = [] ++ (spaced items trail).toList := rfl
    exact lexFrom_spaced h hts hwhole
  refine ⟨hlex, fun types source d hd => ⟨fun items trail h htexts => ?_, fun source' =>
    read_of_tokenTexts_eq hd⟩⟩
  have hg := (read_eq_ok_iff.mp hd).1
  apply read_of_tokenTexts_eq hd
  rw [← htexts]
  exact (hlex items trail _ h (htexts ▸ forall₂_tokenTexts hg)).2

/-- A rule with a quoted symbol and a string, in which every token stands on a line of its own. -/
def spreadSign : List (String × String) :=
  ["Sign", ":", "'+'", "\x7b", "static", "List", ".", "of", "(", "\"plus\"", ",", "$0", ")", ";",
    "\x7d"].map fun text => ("\r\n\t", text)

/-- The rule is the same one wherever its tokens stand. -/
theorem lex_respaced_spreadSign :
    IsSpacing spreadSign "\x0c" ∧ spreadSign.map Prod.snd = tokenTexts Language.signText ∧
    read sampleTypes (spaced spreadSign "\x0c") = .ok ⟨[Language.signRule], some "Sign"⟩ := by
  have hspacing : IsSpacing spreadSign "\x0c" := by
    constructor <;> decide
  have htexts : spreadSign.map Prod.snd = tokenTexts Language.signText := by rfl
  obtain ⟨-, hread⟩ := lex_respaced
  obtain ⟨hspaced, -⟩ := hread sampleTypes _ _ Language.read_signText
  exact ⟨hspacing, htexts, hspaced _ _ hspacing htexts⟩

end ActionGrammar.GrammarText
