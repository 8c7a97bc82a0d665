import ActionGrammar.Proofs.GrammarText.Spelling

/-! # Tokens cut the text

The tokens of a text stand side by side in it, with nothing but blanks between
them. So the text can be put together again from its tokens and the gaps between
them, whatever it is.
-/

namespace ActionGrammar.GrammarText

open Progress

/-! ### Blanks -/

theorem IsLexeme.blank {cs : List Char} (h : IsLexeme .blank cs) :
    ∀ c ∈ cs, isBlank c = true := by
  obtain ⟨c, ds, hc, hds, rfl⟩ := mem_letter_mul.mp (isLexeme_iff.mp h).2
  exact List.forall_mem_cons.mpr ⟨hc, mem_kstar_letter.mp hds⟩

/-! ### Tokens between blanks -/

def Token.Spans (t : Token) (i : Nat) : Prop := t.start ≤ i ∧ i < t.stop

/-- The texts of the tokens, with what stands before, between and behind them. -/
def withGaps (source : String) : (position : Nat) → List Token → String
  | position, [] => textBetween source position source.utf8ByteSize
  | position, t :: ts =>
    textBetween source position t.start ++ t.text source ++ withGaps source t.stop ts

theorem byteSize_pos {cs : List Char} (h : cs ≠ []) : 0 < byteSize cs := by
  obtain ⟨c, cs, rfl⟩ := List.exists_cons_of_ne_nil h
  exact Nat.add_pos_left c.utf8Size_pos _

theorem append_eq_append_cons {xs ys before after : List Char} {c : Char}
    (h : xs ++ ys = before ++ c :: after) :
    (∃ xs', xs = before ++ c :: xs') ∨
      ∃ before', before = xs ++ before' ∧ ys = before' ++ c :: after := by
  rcases List.append_eq_append_iff.mp h with ⟨zs, rfl, rfl⟩ | ⟨_ | ⟨d, zs⟩, rfl, hzs⟩
  · exact .inr ⟨zs, rfl, rfl⟩
  · exact .inr ⟨[], by simp, by simpa using hzs.symm⟩
  · obtain ⟨rfl, -⟩ := List.cons.inj hzs
    exact .inl ⟨zs, rfl⟩

/-- From `position` on, the tokens stand in the text, and nothing but blanks before, between and
behind them. -/
inductive Tiles : (position : Nat) → List Token → List Char → Prop
  | gap {position : Nat} {gap : List Char} : (∀ c ∈ gap, isBlank c = true) → Tiles position [] gap
  | token {position : Nat} {gap cs rest : List Char} {t : Token} {ts : List Token} :
      (∀ c ∈ gap, isBlank c = true) → cs ≠ [] → t.start = position + byteSize gap →
      t.stop = t.start + byteSize cs → Tiles t.stop ts rest →
      Tiles position (t :: ts) (gap ++ (cs ++ rest))

namespace Tiles

variable {position start : Nat} {ts : List Token} {cs text : List Char} {t : Token}

theorem blanks (hcs : ∀ c ∈ cs, isBlank c = true) (h : Tiles (position + byteSize cs) ts text) :
    Tiles position ts (cs ++ text) := by
  cases h with
  | gap hgap => exact .gap (List.forall_mem_append.mpr ⟨hcs, hgap⟩)
  | token hgap hne hstart hstop h =>
    rw [← List.append_assoc]
    refine .token (List.forall_mem_append.mpr ⟨hcs, hgap⟩) hne ?_ hstop h
    rw [hstart, byteSize_append, Nat.add_assoc]

theorem cons (hne : cs ≠ []) (hstart : t.start = position)
    (hstop : t.stop = position + byteSize cs) (h : Tiles t.stop ts text) :
    Tiles position (t :: ts) (cs ++ text) :=
  @token position [] cs text t ts (by simp) hne (by simp [hstart, byteSize])
    (by rw [hstop, hstart]) h

theorem exists_cut (h : Tiles position ts text) (ht : t ∈ ts) :
    ∃ before cs after, text = before ++ (cs ++ after) ∧ cs ≠ [] ∧
      t.start = position + byteSize before ∧ t.stop = t.start + byteSize cs := by
  induction h with
  | gap => exact nomatch ht
  | @token position gap cs rest t' ts _ hne hstart hstop _ ih =>
    rcases List.mem_cons.mp ht with rfl | ht
    · exact ⟨gap, cs, rest, rfl, hne, hstart, hstop⟩
    · obtain ⟨before, cs', after, rfl, hne', hstart', hstop'⟩ := ih ht
      refine ⟨gap ++ (cs ++ before), cs', after, by simp, hne', ?_, hstop'⟩
      simp only [hstart', hstop, hstart, byteSize_append, Nat.add_assoc]

theorem le_start (h : Tiles position ts text) (ht : t ∈ ts) : position ≤ t.start := by
  obtain ⟨before, _, _, -, -, hstart, -⟩ := h.exists_cut ht
  exact hstart ▸ Nat.le_add_right _ _

theorem start_lt_stop (h : Tiles position ts text) (ht : t ∈ ts) : t.start < t.stop := by
  obtain ⟨_, cs, _, -, hne, -, hstop⟩ := h.exists_cut ht
  have := byteSize_pos hne
  omega

theorem pairwise (h : Tiles position ts text) :
    ts.Pairwise fun t u => t.start < u.start ∧ t.stop ≤ u.start := by
  induction h with
  | gap => exact .nil
  | token _ hne _ hstop h ih =>
    refine .cons (fun u hu => ?_) ih
    have hle := h.le_start hu
    have hpos := byteSize_pos hne
    omega

theorem unique (h : Tiles position ts text) {u : Token} (ht : t ∈ ts) (hu : u ∈ ts) {i : Nat}
    (hti : t.Spans i) (hui : u.Spans i) : t = u := by
  induction h with
  | gap => exact nomatch ht
  | @token position gap cs rest t' ts _ _ _ _ h ih =>
    have hbehind {t u : Token} (hu : u ∈ ts) (ht : t.stop = t'.stop) (hti : t.Spans i)
        (hui : u.Spans i) : False := by
      have := h.le_start hu
      have := hti.2
      have := hui.1
      omega
    rcases List.mem_cons.mp ht with rfl | htail <;> rcases List.mem_cons.mp hu with rfl | hutail
    · rfl
    · exact (hbehind hutail rfl hti hui).elim
    · exact (hbehind htail rfl hui hti).elim
    · exact ih htail hutail

theorem isBlank_of_outside (h : Tiles position ts text) {before after : List Char} {c : Char}
    (htext : text = before ++ c :: after)
    (hout : ∀ t ∈ ts, ¬ t.Spans (position + byteSize before)) : isBlank c = true := by
  induction h generalizing before with
  | gap hgap => exact hgap c (by simp [htext])
  | @token position gap cs rest t ts hgap hne hstart hstop _ ih =>
    obtain ⟨hout, houts⟩ := List.forall_mem_cons.mp hout
    rcases append_eq_append_cons htext with ⟨gap', rfl⟩ | ⟨before, rfl, hrest⟩
    · exact hgap c (by simp)
    · rcases append_eq_append_cons hrest with ⟨cs', rfl⟩ | ⟨before, rfl, hbehind⟩
      · refine absurd ?_ hout
        have := c.utf8Size_pos
        simp only [Token.Spans, hstop, hstart, byteSize_append, byteSize]
        omega
      · refine ih hbehind fun u hu => ?_
        have hposition :
            t.stop + byteSize before = position + byteSize (gap ++ (cs ++ before)) := by
          simp only [hstop, hstart, byteSize_append, Nat.add_assoc]
        exact hposition ▸ houts u hu

theorem withGaps_eq (h : Tiles position ts text) {source : String} {front : List Char}
    (hsource : source.toList = front ++ text) (hposition : position = byteSize front) :
    withGaps source position ts = String.ofList text := by
  induction h generalizing front with
  | @gap position gap =>
    have hend : source.utf8ByteSize = byteSize front + byteSize gap := by
      rw [← byteSize_toList, hsource, byteSize_append]
    rw [withGaps, hend, hposition]
    have hall : source.toList = front ++ (gap ++ []) := by simpa using hsource
    exact textBetween_eq hall
  | @token position gap cs rest t ts _ _ hstart hstop _ ih =>
    have hfront : source.toList = (front ++ (gap ++ cs)) ++ rest := by simpa using hsource
    have hrest := ih hfront
      (by simp only [hstop, hstart, hposition, byteSize_append, Nat.add_assoc])
    have hgap : textBetween source position t.start = String.ofList gap := by
      rw [hstart, hposition]
      exact textBetween_eq hsource
    have htoken : t.text source = String.ofList cs := by
      have hcs : source.toList = (front ++ gap) ++ (cs ++ rest) := by simpa using hsource
      rw [Token.text, hstop, hstart, hposition, ← byteSize_append]
      exact textBetween_eq hcs
    rw [withGaps, hgap, htoken, hrest, String.ofList_append, String.ofList_append,
      String.append_assoc]

end Tiles

structure Slice.IsCut (s : Slice) : Prop where
  nonempty : s.chars ≠ []
  blank : s.kind = some .blank → ∀ c ∈ s.chars, isBlank c = true

theorem isCut_of_mem_slices {s : Slice} {cs : List Char} (h : s ∈ slices cs) : s.IsCut := by
  constructor
  · exact (begins_of_mem_slices h).1
  · exact fun hk => (isLexeme_of_mem_slices h hk).blank

/-- Garbage goes on for as long as nothing is recognized, and then ends before the next slice. -/
theorem tokensFrom_pending (position start : Nat) (s : Slice) (ss : List Slice) :
    tokensFrom position (some start) (s :: ss) =
      if s.kind = none then tokensFrom (position + s.size) (some start) ss
      else .garbage start position :: tokensFrom position none (s :: ss) := by
  obtain ⟨_ | k, cs⟩ := s
  · rfl
  · cases k <;> rfl

/-- However a text is cut into slices, the tokens tile it. Where a stretch of garbage is open, they
tile the text behind it together with the garbage. -/
theorem tiles_tokensFrom {ss : List Slice} (hss : ∀ s ∈ ss, s.IsCut) (position : Nat) :
    Tiles position (tokensFrom position none ss) (ss.flatMap Slice.chars) ∧
    ∀ start pending, pending ≠ [] → position = start + byteSize pending →
      Tiles start (tokensFrom position (some start) ss) (pending ++ ss.flatMap Slice.chars) := by
  induction ss generalizing position with
  | nil =>
    have hend : Tiles position [] [] := .gap (by simp)
    exact ⟨hend, fun start pending hne hposition => .cons hne rfl hposition hend⟩
  | cons s ss ih =>
    obtain ⟨hs, hss⟩ := List.forall_mem_cons.mp hss
    obtain ⟨hclosed, hopen⟩ := ih hss (position + s.size)
    have hnone : Tiles position (tokensFrom position none (s :: ss))
        ((s :: ss).flatMap Slice.chars) := by
      rw [List.flatMap_cons, tokensFrom]
      split
      · exact hopen position s.chars hs.nonempty rfl
      · exact hclosed.blanks (hs.blank (by assumption))
      · rw [close, Option.toList_none, List.map_nil, List.nil_append]
        split
        · exact .cons hs.nonempty rfl rfl hclosed
        · exact hopen position s.chars hs.nonempty rfl
    -- An open stretch takes the slice in, or it ends and the slice follows as if none were open.
    refine ⟨hnone, fun start pending hne hposition => ?_⟩
    rw [tokensFrom_pending]
    split
    · have hpending := hopen start (pending ++ s.chars) (by simp [hne])
        (by rw [byteSize_append, hposition, Nat.add_assoc, Slice.size])
      rwa [List.append_assoc, ← List.flatMap_cons] at hpending
    · exact .cons hne rfl hposition hnone

theorem tiles_lex (source : String) : Tiles 0 (lex source) source.toList := by
  have hcut : ∀ s ∈ slices source.toList, s.IsCut := fun s hs => isCut_of_mem_slices hs
  have h := (tiles_tokensFrom hcut 0).1
  rwa [flatMap_chars_slices] at h

/-! ### The whole text -/

/-- The tokens of any text are nonempty stretches of it, one behind the other, and only blanks are
left out. So the tokens and the gaps between them make up the text, and no character stands in two
tokens. -/
theorem lex_partition (source : String) :
    (∀ t ∈ lex source, t.start < t.stop ∧ t.stop ≤ source.utf8ByteSize ∧
      ∃ before after, source = before ++ t.text source ++ after ∧
        t.start = before.utf8ByteSize ∧ t.stop = (before ++ t.text source).utf8ByteSize) ∧
    (lex source).Pairwise (fun t u => t.start < u.start ∧ t.stop ≤ u.start) ∧
    (∀ before c after, source.toList = before ++ c :: after →
      (∃! t, t ∈ lex source ∧ t.Spans (byteSize before)) ∨
      (∀ t ∈ lex source, ¬ t.Spans (byteSize before)) ∧ c ∈ [' ', '\t', '\r', '\n', '\x0c']) ∧
    withGaps source 0 (lex source) = source := by
  have h := tiles_lex source
  refine ⟨fun t ht => ⟨h.start_lt_stop ht, ?_⟩, h.pairwise, fun before c after htext => ?_, ?_⟩
  · obtain ⟨before, cs, after, htext, -, hstart, hstop⟩ := h.exists_cut ht
    rw [Nat.zero_add] at hstart
    have htoken : t.text source = String.ofList cs := by
      rw [Token.text, hstop, hstart]
      exact textBetween_eq htext
    have hsource : source = String.ofList before ++ t.text source ++ String.ofList after := by
      rw [htoken, ← String.toList_inj]
      simp [htext]
    refine ⟨?_, String.ofList before, String.ofList after, hsource, ?_, ?_⟩
    · rw [← byteSize_toList, htext, hstop, hstart, byteSize_append, byteSize_append,
        ← Nat.add_assoc]
      exact Nat.le_add_right _ _
    · rw [hstart, ← byteSize_toList, String.toList_ofList]
    · rw [hstop, hstart, htoken, ← byteSize_toList, String.toList_append, String.toList_ofList,
        String.toList_ofList, byteSize_append]
  · by_cases hspan : ∃ t ∈ lex source, t.Spans (byteSize before)
    · obtain ⟨t, ht, hti⟩ := hspan
      refine .inl ⟨t, ⟨ht, hti⟩, ?_⟩
      rintro u ⟨hu, hui⟩
      exact h.unique hu ht hui hti
    · push Not at hspan
      have hblank := h.isBlank_of_outside htext (by simpa using hspan)
      exact .inr ⟨hspan, by simpa [isBlank, or_assoc] using hblank⟩
  · have htext : source.toList = [] ++ source.toList := rfl
    rw [h.withGaps_eq htext rfl, String.ofList_toList]

def mixedText : String := "é $99999999999999999999+\n\"ü \""

def mixedTokens : List Token :=
  [.garbage 0 2, .garbage 3 25, ⟨.str, 26, 31, some (.str "ü ")⟩]

/-- The index is garbage together with the sign behind it, which the newline ends, while the blank
in the string stands in a token. -/
theorem lex_partition_mixed :
    lex mixedText = mixedTokens ∧
    (∃ before after, mixedText = before ++ "$99999999999999999999+" ++ after ∧
      3 = before.utf8ByteSize) ∧
    mixedText.toList = "é $99999999999999999999+\n\"ü".toList ++ ' ' :: ['"'] ∧
    (∃! t, t ∈ mixedTokens ∧ t.Spans 29) ∧ withGaps mixedText 0 mixedTokens = mixedText := by
  have hlex : lex mixedText = mixedTokens := by decide +kernel
  obtain ⟨htoken, -, hchar, hgaps⟩ := lex_partition mixedText
  rw [hlex] at htoken hchar hgaps
  have hindex : Token.text (.garbage 3 25) mixedText = "$99999999999999999999+" := by
    decide +kernel
  have htext : mixedText.toList = "é $99999999999999999999+\n\"ü".toList ++ ' ' :: ['"'] := by
    decide +kernel
  have hsize : byteSize "é $99999999999999999999+\n\"ü".toList = 29 := by decide +kernel
  obtain ⟨-, -, before, after, hcut, hstart, -⟩ := htoken (.garbage 3 25) (by simp [mixedTokens])
  rw [hindex] at hcut
  refine ⟨hlex, ⟨before, after, hcut, hstart⟩, htext, ?_, hgaps⟩
  have hblank := hchar _ _ _ htext
  rw [hsize] at hblank
  refine hblank.resolve_right fun hout => ?_
  exact hout.1 ⟨.str, 26, 31, some (.str "ü ")⟩ (by simp [mixedTokens]) ⟨by decide, by decide⟩

end ActionGrammar.GrammarText
