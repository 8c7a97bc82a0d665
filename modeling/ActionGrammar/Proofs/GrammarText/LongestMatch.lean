import ActionGrammar.Proofs.GrammarText.Pattern

/-! # Slices are the longest matches

The first slice of a text is the longest of its beginnings that a pattern matches. Where no pattern
matches, it is the longest beginning that could still be extended to a match, or a single character.
The slices of a text are found that way one after the other.
-/

namespace ActionGrammar.GrammarText

open Progress

/-! ### The longest match -/

/-- `ds` is the longest beginning of `cs` that has the property. -/
structure IsLongest (P : List Char → Prop) (cs ds : List Char) : Prop where
  begins : ds <+: cs
  holds : P ds
  longest : ∀ es, es <+: cs → P es → es.length ≤ ds.length

section

variable {P Q : List Char → Prop} {c : Char} {cs ds es : List Char}

theorem isLongest_cons_iff (hQ : ∀ ds, P (c :: ds) ↔ Q ds) :
    IsLongest P (c :: cs) (c :: ds) ↔ IsLongest Q cs ds := by
  constructor
  · intro h
    constructor
    · exact (List.prefix_cons_inj c).mp h.begins
    · exact (hQ ds).mp h.holds
    · intro es hes hQes
      have := h.longest (c :: es) ((List.prefix_cons_inj c).mpr hes) ((hQ es).mpr hQes)
      simpa using this
  · intro h
    constructor
    · exact (List.prefix_cons_inj c).mpr h.begins
    · exact (hQ ds).mpr h.holds
    · intro es hes hPes
      obtain rfl | ⟨xs, rfl, hxs⟩ := List.prefix_cons_iff.mp hes
      · exact Nat.zero_le _
      · have := h.longest xs hxs ((hQ xs).mp hPes)
        simpa using this

theorem isLongest_nil (hP : P []) (h : ∀ es, es <+: cs → es ≠ [] → ¬ P es) :
    IsLongest P cs [] where
  begins := List.nil_prefix
  holds := hP
  longest es hes hPes := by
    by_contra hlength
    exact h es hes (by rintro rfl; exact hlength (Nat.le_refl _)) hPes

theorem exists_isLongest (hes : es <+: cs) (h : P es) : ∃ ds, IsLongest P cs ds := by
  induction cs generalizing P es with
  | nil =>
    obtain rfl := List.prefix_nil.mp hes
    exact ⟨[], isLongest_nil h fun es hes hne => absurd (List.prefix_nil.mp hes) hne⟩
  | cons c cs ih =>
    by_cases hlonger : ∃ es, es <+: cs ∧ P (c :: es)
    · obtain ⟨es, hes, h⟩ := hlonger
      obtain ⟨ds, hds⟩ := @ih (fun ds => P (c :: ds)) es hes h
      exact ⟨c :: ds, (isLongest_cons_iff fun _ => Iff.rfl).mpr hds⟩
    · have hnil : ∀ es, es <+: c :: cs → P es → es = [] := by
        intro es hes hP
        obtain rfl | ⟨xs, rfl, hxs⟩ := List.prefix_cons_iff.mp hes
        · rfl
        · exact absurd ⟨xs, hxs, hP⟩ hlonger
      obtain rfl := hnil es hes h
      exact ⟨[], isLongest_nil h fun es hes hne hP => hne (hnil es hes hP)⟩

end

/-! ### Following the patterns -/

section

variable {p q : Progress} {reach : Reach} {k : Kind} {c : Char} {cs ds es : List Char}

def Progress.Matches (p : Progress) (cs : List Char) : Prop := ∃ k, cs ∈ p.rest k

def Progress.Extends (p : Progress) (cs : List Char) : Prop := ∃ es, p.Matches (cs ++ es)

theorem matches_cons_iff (hq : p.step c = some q) : p.Matches (c :: ds) ↔ q.Matches ds := by
  simp [Progress.Matches, cons_mem_rest, hq]

theorem extends_cons_iff (hq : p.step c = some q) : p.Extends (c :: ds) ↔ q.Extends ds := by
  simp [Progress.Extends, matches_cons_iff hq]

theorem not_matches_cons (hq : p.step c = none) : ¬ p.Matches (c :: ds) := by
  simp [Progress.Matches, cons_mem_rest, hq]

theorem not_extends_cons (hq : p.step c = none) : ¬ p.Extends (c :: ds) := by
  rintro ⟨es, h⟩
  exact not_matches_cons hq h

theorem extends_nil (p : Progress) : p.Extends [] := by
  obtain ⟨k, cs, h⟩ := exists_mem_rest p
  exact ⟨cs, k, h⟩

theorem matched_follow_of_not_matches (h : ∀ ds, ds <+: cs → ds ≠ [] → ¬ p.Matches ds) :
    (follow p reach cs).matched = reach.matched := by
  induction cs generalizing p reach with
  | nil => rfl
  | cons c cs ih =>
    rw [follow]
    cases hq : p.step c with
    | none => rfl
    | some q =>
      have hlater : ∀ ds, ds <+: cs → ¬ q.Matches ds := by
        intro ds hds hm
        exact h (c :: ds) ((List.prefix_cons_inj c).mpr hds) (List.cons_ne_nil c ds)
          ((matches_cons_iff hq).mpr hm)
      have hnone : q.accepts = none := by
        by_contra hne
        obtain ⟨k, hk⟩ := Option.ne_none_iff_exists'.mp hne
        exact hlater [] List.nil_prefix ⟨k, nil_mem_rest.mpr hk⟩
      dsimp only
      rw [ih fun ds hds _ => hlater ds hds, Reach.extend, hnone]
      rfl

/-- What is matched in the end is the longest match, if the match so far is known. -/
theorem matched_follow (hp : ∀ k, p.accepts = some k → reach.matched = some (k, reach.count))
    (h : IsLongest p.Matches cs ds) (hk : ds ∈ p.rest k) :
    (follow p reach cs).matched = some (k, reach.count + ds.length) := by
  induction cs generalizing p reach ds with
  | nil =>
    obtain rfl := List.prefix_nil.mp h.begins
    exact hp k (nil_mem_rest.mp hk)
  | cons c cs ih =>
    obtain rfl | ⟨es, rfl, hes⟩ := List.prefix_cons_iff.mp h.begins
    · have hlonger : ∀ ds, ds <+: c :: cs → ds ≠ [] → ¬ p.Matches ds := by
        intro ds hds hne hm
        exact hne (List.length_eq_zero_iff.mp (Nat.le_zero.mp (h.longest ds hds hm)))
      rw [matched_follow_of_not_matches hlonger]
      exact hp k (nil_mem_rest.mp hk)
    · obtain ⟨q, hq, hk⟩ := cons_mem_rest.mp hk
      have hlongest : IsLongest q.Matches cs es :=
        (isLongest_cons_iff fun _ => matches_cons_iff hq).mp h
      have hreach : ∀ k, q.accepts = some k →
          (reach.extend q.accepts).matched = some (k, (reach.extend q.accepts).count) := by
        intro k hk
        rw [Reach.extend, hk]
        rfl
      rw [follow, hq]
      dsimp only
      rw [ih hreach hlongest hk, Reach.extend, List.length_cons, Nat.add_right_comm, Nat.add_assoc]

theorem count_follow (h : IsLongest p.Extends cs ds) :
    (follow p reach cs).count = reach.count + ds.length := by
  induction cs generalizing p reach ds with
  | nil =>
    obtain rfl := List.prefix_nil.mp h.begins
    rfl
  | cons c cs ih =>
    rw [follow]
    cases hq : p.step c with
    | none =>
      obtain rfl | ⟨es, rfl, -⟩ := List.prefix_cons_iff.mp h.begins
      · rfl
      · exact absurd h.holds (not_extends_cons hq)
    | some q =>
      obtain rfl | ⟨es, rfl, -⟩ := List.prefix_cons_iff.mp h.begins
      · have hfirst : p.Extends [c] := (extends_cons_iff hq).mpr (extends_nil q)
        exact absurd (h.longest [c] ((List.prefix_cons_inj c).mpr List.nil_prefix) hfirst)
          (Nat.not_succ_le_zero 0)
      · have hlongest : IsLongest q.Extends cs es :=
          (isLongest_cons_iff fun _ => extends_cons_iff hq).mp h
        dsimp only
        rw [ih hlongest, Reach.extend, List.length_cons, Nat.add_right_comm, Nat.add_assoc]

end

/-! ### Slices -/

def IsMatch (cs : List Char) : Prop := ∃ k : Kind, cs ∈ k.pattern

/-- Some pattern matches if further characters come behind. -/
def IsExtendable (cs : List Char) : Prop := ∃ es, IsMatch (cs ++ es)

/-- The slice stands at the beginning of the text. -/
inductive Slice.Begins (cs : List Char) : Slice → Prop
  | token {k : Kind} {ds : List Char} : IsLongest IsMatch cs ds → ds ∈ k.pattern →
      k.isKeyword = false → Begins cs ⟨some k, ds⟩
  | unknown {ds : List Char} : (∀ ds, ds <+: cs → ¬ IsMatch ds) → IsLongest IsExtendable cs ds →
      Begins cs ⟨none, cs.take (max ds.length 1)⟩

/-- The slices cut the text one after the other. -/
inductive Cuts : List Char → List Slice → Prop
  | nil : Cuts [] []
  | cons {s : Slice} {ss : List Slice} {rest : List Char} : s.chars ≠ [] →
      s.Begins (s.chars ++ rest) → Cuts rest ss → Cuts (s.chars ++ rest) (s :: ss)

section

variable {k : Kind} {s : Slice} {ss : List Slice} {cs ds : List Char}

theorem mem_symbol_of_keyword (hk : k.isKeyword = true) (h : ds ∈ k.pattern) :
    ds ∈ Kind.symbol.pattern := by
  have hds : ds = "new".toList ∨ ds = "static".toList := by
    cases k with
    | new => exact .inl h
    | static => exact .inr h
    | _ => cases hk
  rcases hds with rfl | rfl <;> exact (isLexeme_iff.mp ⟨word, rfl, rfl⟩).2

theorem isMatch_iff : IsMatch ds ↔ start.Matches ds := by
  constructor
  · rintro ⟨k, h⟩
    cases hk : k.isKeyword with
    | false => exact ⟨k, mem_start_rest_iff.mpr ⟨hk, h⟩⟩
    | true => exact ⟨.symbol, mem_start_rest_iff.mpr ⟨rfl, mem_symbol_of_keyword hk h⟩⟩
  · rintro ⟨k, h⟩
    exact ⟨k, (mem_start_rest_iff.mp h).2⟩

theorem isMatch_eq : IsMatch = start.Matches := funext fun _ => propext isMatch_iff

theorem isExtendable_eq : IsExtendable = start.Extends := by
  unfold IsExtendable
  rw [isMatch_eq]
  rfl

theorem eq_firstSlice_of_begins (h : s.Begins cs) : s = firstSlice cs := by
  unfold firstSlice
  cases h with
  | @token k ds hlongest hds hk =>
    have hrest : ds ∈ start.rest k := mem_start_rest_iff.mpr ⟨hk, hds⟩
    have hm : (follow start ⟨none, 0⟩ cs).matched = some (k, 0 + ds.length) :=
      matched_follow nofun (isMatch_eq ▸ hlongest) hrest
    generalize follow start ⟨none, 0⟩ cs = reach at hm
    obtain ⟨_, n⟩ := reach
    obtain rfl := hm
    simp only [Nat.zero_add, ← List.prefix_iff_eq_take.mp hlongest.begins]
  | @unknown ds hnone hlongest =>
    have hm : (follow start ⟨none, 0⟩ cs).matched = none :=
      matched_follow_of_not_matches fun ds hds _ => isMatch_eq ▸ hnone ds hds
    have hcount : (follow start ⟨none, 0⟩ cs).count = 0 + ds.length :=
      count_follow (isExtendable_eq ▸ hlongest)
    generalize follow start ⟨none, 0⟩ cs = reach at hm hcount
    obtain ⟨_, n⟩ := reach
    obtain rfl := hm
    obtain rfl := hcount
    rw [Nat.zero_add]

theorem exists_begins (cs : List Char) : ∃ s : Slice, s.Begins cs := by
  by_cases h : ∃ ds, ds <+: cs ∧ IsMatch ds
  · obtain ⟨ds, hds, hm⟩ := h
    obtain ⟨es, hes⟩ := exists_isLongest hds hm
    obtain ⟨k, hk⟩ := isMatch_iff.mp hes.holds
    obtain ⟨hk, hmem⟩ := mem_start_rest_iff.mp hk
    exact ⟨_, .token hes hmem hk⟩
  · have hnil : IsExtendable [] := isExtendable_eq ▸ extends_nil start
    obtain ⟨ds, hds⟩ := exists_isLongest (List.nil_prefix (l := cs)) hnil
    exact ⟨_, .unknown (fun es hes hm => h ⟨es, hes, hm⟩) hds⟩

theorem begins_iff : s.Begins cs ↔ s = firstSlice cs := by
  constructor
  · exact eq_firstSlice_of_begins
  · rintro rfl
    obtain ⟨s, hs⟩ := exists_begins cs
    exact eq_firstSlice_of_begins hs ▸ hs

theorem isPrefix_firstSlice (h : IsLexeme k cs) (rest : List Char) :
    (∃ k', (firstSlice (cs ++ rest)).kind = some k') ∧ cs <+: (firstSlice (cs ++ rest)).chars := by
  have hbegins : (firstSlice (cs ++ rest)).Begins (cs ++ rest) := begins_iff.mpr rfl
  have hprefix : cs <+: cs ++ rest := List.prefix_append cs rest
  have hmatch : IsMatch cs := ⟨k, (isLexeme_iff.mp h).2⟩
  generalize firstSlice (cs ++ rest) = s at hbegins
  cases hbegins with
  | token hlongest =>
    constructor
    · exact ⟨_, rfl⟩
    · exact List.prefix_of_prefix_length_le hprefix hlongest.begins
        (hlongest.longest cs hprefix hmatch)
  | unknown hnone => exact absurd hmatch (hnone cs hprefix)

theorem slices_firstSlice_append {rest : List Char} (h : s.chars ≠ [])
    (hs : s = firstSlice (s.chars ++ rest)) : slices (s.chars ++ rest) = s :: slices rest := by
  obtain ⟨c, cs, hc⟩ := List.exists_cons_of_ne_nil h
  rw [hc, List.cons_append] at hs ⊢
  rw [slices, slicesAfter, ← hs, slicesAfter_eq, hc]
  simp

theorem cuts_slices (cs : List Char) : Cuts cs (slices cs) := by
  -- What is left behind the first slice is shorter, because no slice is empty.
  induction h : cs.length using Nat.strong_induction_on generalizing cs with
  | _ n ih =>
    by_cases hcs : cs = []
    · subst hcs
      exact .nil
    · obtain ⟨m, hm, hchars⟩ := chars_firstSlice hcs
      have hcut : (firstSlice cs).chars ++ cs.drop (m + 1) = cs := by
        rw [hchars, List.take_append_drop]
      have hne : (firstSlice cs).chars ≠ [] := by simpa [hchars] using hcs
      have hfirst : firstSlice cs = firstSlice ((firstSlice cs).chars ++ cs.drop (m + 1)) := by
        rw [hcut]
      have hslices := slices_firstSlice_append hne hfirst
      have hrest : Cuts (cs.drop (m + 1)) (slices (cs.drop (m + 1))) := by
        apply ih _ _ _ rfl
        rw [List.length_drop]
        omega
      have hcuts := Cuts.cons hne (begins_iff.mpr hfirst) hrest
      rwa [← hslices, hcut] at hcuts

/-- The slices of a text are those that the patterns cut. -/
theorem cuts_iff : Cuts cs ss ↔ ss = slices cs := by
  constructor
  · intro h
    induction h with
    | nil => rfl
    | cons hne hs _ ih => rw [slices_firstSlice_append hne (begins_iff.mp hs), ih]
  · rintro rfl
    exact cuts_slices cs

theorem Slice.Begins.isLexeme (h : s.Begins cs) (hk : s.kind = some k) : IsLexeme k s.chars := by
  cases h with
  | token _ hds hword =>
    cases hk
    exact isLexeme_iff.mpr ⟨hword, hds⟩
  | unknown => cases hk

theorem Cuts.begins_of_mem (h : Cuts cs ss) (hs : s ∈ ss) :
    s.chars ≠ [] ∧ ∃ rest, s.Begins rest := by
  induction h with
  | nil => cases hs
  | cons hne hbegins _ ih =>
    rcases List.mem_cons.mp hs with rfl | hs
    · exact ⟨hne, _, hbegins⟩
    · exact ih hs

theorem begins_of_mem_slices (h : s ∈ slices cs) : s.chars ≠ [] ∧ ∃ rest, s.Begins rest :=
  (cuts_iff.mpr rfl).begins_of_mem h

theorem isLexeme_of_mem_slices (h : s ∈ slices cs) (hk : s.kind = some k) :
    IsLexeme k s.chars := by
  obtain ⟨-, rest, hbegins⟩ := begins_of_mem_slices h
  exact hbegins.isLexeme hk

end

/-! ### Tokens -/

theorem exists_text_of_mem_lex {source : String} {t : Token} (h : t ∈ lex source)
    (hg : t.kind ≠ .garbage) :
    ∃ k, IsLexeme k (t.text source).toList ∧
      decode? k (t.text source).toList = some (t.kind, t.payload) := by
  obtain ⟨before, s, after, k, hcut, hk, hd, hstart, hstop⟩ := comesFrom_of_mem_lex h hg
  have hsource : source.toList =
      before.flatMap Slice.chars ++ (s.chars ++ after.flatMap Slice.chars) := by
    rw [← flatMap_chars_slices source.toList, hcut, List.flatMap_append, List.flatMap_cons]
  have htext : t.text source = String.ofList s.chars := by
    rw [Token.text, hstop, hstart, Nat.zero_add]
    exact textBetween_eq hsource
  rw [htext, String.toList_ofList]
  exact ⟨k, isLexeme_of_mem_slices (hcut ▸ List.mem_append_cons_self) hk, hd⟩

theorem exists_lexeme_of_mem_lex {t : Token} {source : String} (h : t ∈ lex source)
    (hg : t.kind ≠ .garbage) :
    ∃ k cs, IsLexeme k cs ∧ decode? k cs = some (t.kind, t.payload) := by
  obtain ⟨k, hl, hd⟩ := exists_text_of_mem_lex h hg
  exact ⟨k, _, hl, hd⟩

section

variable {k k' w : Kind} {payload : Option Literal} {cs : List Char}

theorem mem_pattern_of_decode? (h : IsLexeme k cs) (hd : decode? k cs = some (k', payload)) :
    cs ∈ k'.pattern ∨ (k' = .double ∧ cs ∈ Kind.int.pattern) := by
  obtain ⟨-, hcs⟩ := isLexeme_iff.mp h
  cases k with
  | symbol =>
    simp only [decode?] at hd
    split at hd
    · rename_i hnew
      cases hd
      exact .inl hnew
    · split at hd
      · rename_i hstatic
        cases hd
        exact .inl hstatic
      · cases hd
        exact .inl hcs
  | int =>
    simp only [decode?] at hd
    split at hd
    · cases hd
      exact .inl hcs
    · obtain ⟨x, -, hx⟩ := Option.map_eq_some_iff.mp hd
      cases hx
      exact .inr ⟨rfl, hcs⟩
  | double | result =>
    obtain ⟨x, -, hx⟩ := Option.map_eq_some_iff.mp hd
    cases hx
    exact .inl hcs
  | _ =>
    cases hd
    exact .inl hcs

theorem eq_keyword_of_decode? (hw : w.isKeyword = true) (hcs : cs ∈ w.pattern)
    (h : IsLexeme k cs) (hd : decode? k cs = some (k', payload)) : k' = w := by
  obtain ⟨p, hrun, hp⟩ := h
  cases w with
  | new | static =>
    obtain rfl := hcs
    cases hrun
    cases hp
    cases hd
    rfl
  | _ => cases hw

end

/-- A token is what the pattern of its kind matches, except that long integers are doubles. A
symbol is no keyword. -/
theorem mem_pattern_of_mem_lex {t : Token} {source : String} (h : t ∈ lex source)
    (hg : t.kind ≠ .garbage) :
    ((t.text source).toList ∈ t.kind.pattern ∨
      (t.kind = .double ∧ (t.text source).toList ∈ Kind.int.pattern)) ∧
    ∀ w : Kind, w.isKeyword = true → (t.text source).toList ∈ w.pattern → t.kind = w := by
  obtain ⟨k, hl, hd⟩ := exists_text_of_mem_lex h hg
  constructor
  · exact mem_pattern_of_decode? hl hd
  · intro w hw hmem
    exact eq_keyword_of_decode? hw hmem hl hd

end ActionGrammar.GrammarText
