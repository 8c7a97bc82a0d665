import ActionGrammar.GrammarText.Lexer

/-! # Lexemes

A lexeme is a stretch of text that a pattern matches as a whole. A text is cut
behind a lexeme at its beginning, unless the pattern could be followed further,
and every token is decoded from a lexeme.
-/

namespace ActionGrammar.GrammarText

namespace Progress

def run (p : Progress) (cs : List Char) : Option Progress := cs.foldlM step p

@[simp] theorem run_nil (p : Progress) : p.run [] = some p := rfl

@[simp] theorem run_cons (p : Progress) (c : Char) (cs : List Char) :
    p.run (c :: cs) = (p.step c).bind fun q => q.run cs := by
  rw [run, List.foldlM_cons]
  rfl

end Progress

/-- A pattern for tokens of the kind matches the characters. -/
def IsLexeme (k : Kind) (cs : List Char) : Prop :=
  ∃ p, Progress.start.run cs = some p ∧ p.accepts = some k

/-! ### Cutting behind a lexeme -/

open Progress

theorem follow_append {p q : Progress} {reach : Reach} {k : Kind} {cs rest : List Char}
    (hrun : p.run cs = some q) (hk : q.accepts = some k) (hne : cs ≠ [])
    (hstop : ∀ c ∈ rest.head?, q.step c = none) :
    follow p reach (cs ++ rest) =
      ⟨some (k, reach.count + cs.length), reach.count + cs.length⟩ := by
  induction cs generalizing p reach with
  | nil => exact absurd rfl hne
  | cons c cs ih =>
    obtain ⟨p', hp', hrun⟩ := Option.bind_eq_some_iff.mp (run_cons p c cs ▸ hrun)
    rw [List.cons_append, follow, hp']
    cases cs with
    | nil =>
      cases hrun
      have hend : follow q (reach.extend q.accepts) rest = reach.extend q.accepts := by
        cases rest with
        | nil => rfl
        | cons d rest => rw [follow, hstop d rfl]
      refine hend.trans ?_
      rw [Reach.extend, hk]
      rfl
    | cons d ds =>
      have hreach : (reach.extend p'.accepts).count = reach.count + 1 := rfl
      simp only [ih hrun (List.cons_ne_nil d ds), hreach, List.length_cons, Nat.add_assoc,
        Nat.add_comm 1]

theorem firstSlice_append {p : Progress} {k : Kind} {cs rest : List Char}
    (hrun : start.run cs = some p) (hk : p.accepts = some k)
    (hstop : ∀ c ∈ rest.head?, p.step c = none) : firstSlice (cs ++ rest) = ⟨some k, cs⟩ := by
  have hne : cs ≠ [] := by
    rintro rfl
    cases hrun
    exact nomatch hk
  rw [firstSlice, follow_append hrun hk hne hstop]
  simp

theorem slicesAfter_eq (skip : Nat) (cs : List Char) :
    slicesAfter skip cs = slices (cs.drop skip) := by
  induction cs generalizing skip with
  | nil => cases skip <;> rfl
  | cons c cs ih =>
    cases skip with
    | zero => rfl
    | succ skip => exact ih skip

theorem slices_append {p : Progress} {k : Kind} {cs rest : List Char}
    (hrun : start.run cs = some p) (hk : p.accepts = some k)
    (hstop : ∀ c ∈ rest.head?, p.step c = none) :
    slices (cs ++ rest) = ⟨some k, cs⟩ :: slices rest := by
  have hfirst := firstSlice_append hrun hk hstop
  cases cs with
  | nil =>
    cases hrun
    exact nomatch hk
  | cons c cs =>
    rw [List.cons_append] at hfirst ⊢
    rw [slices, slicesAfter, hfirst]
    simp [slicesAfter_eq]

/-- The tokens of a text that begins at `position`. -/
def lexFrom (position : Nat) (cs : List Char) : List Token := tokensFrom position none (slices cs)

theorem lex_eq (source : String) : lex source = lexFrom 0 source.toList := rfl

theorem lexFrom_append {p : Progress} {k k' : Kind} {payload : Option Literal} {cs : List Char}
    (hrun : start.run cs = some p) (hk : p.accepts = some k) (hb : k ≠ .blank)
    (hd : decode? k cs = some (k', payload)) (position : Nat) (rest : List Char)
    (hstop : ∀ c ∈ rest.head?, p.step c = none) :
    lexFrom position (cs ++ rest) =
      ⟨k', position, position + byteSize cs, payload⟩ :: lexFrom (position + byteSize cs) rest := by
  rw [lexFrom, slices_append hrun hk hstop]
  cases k with
  | blank => exact absurd rfl hb
  | _ => simp only [tokensFrom, close, Option.toList, List.map_nil, List.nil_append, hd]; rfl

theorem step_start_blank {c : Char} (h : isBlank c = true) : start.step c = some blanks := by
  simp only [isBlank, Bool.or_eq_true, beq_iff_eq] at h
  rcases h with (((rfl | rfl) | rfl) | rfl) | rfl <;> rfl

theorem run_blanks {cs : List Char} (h : ∀ c ∈ cs, isBlank c = true) :
    blanks.run cs = some blanks := by
  induction cs with
  | nil => rfl
  | cons c cs ih =>
    obtain ⟨hc, hcs⟩ := List.forall_mem_cons.mp h
    rw [run_cons, step, if_pos hc]
    exact ih hcs

theorem lexFrom_blank {b : Char} (hb : isBlank b = true) (position : Nat) (cs : List Char) :
    lexFrom position (b :: cs) = lexFrom (position + byteSize [b]) cs := by
  -- A slice takes all blanks in a row, so both sides go on behind the last one.
  have hrun {b : Char} (hb : isBlank b = true) (position : Nat) (cs : List Char) :
      lexFrom position (b :: cs) = lexFrom (position + byteSize (b :: cs.takeWhile isBlank))
        (cs.dropWhile isBlank) := by
    have hcut : b :: cs = (b :: cs.takeWhile isBlank) ++ cs.dropWhile isBlank := by
      rw [List.cons_append, List.takeWhile_append_dropWhile]
    have hblanks : start.run (b :: cs.takeWhile isBlank) = some blanks := by
      rw [run_cons, step_start_blank hb]
      exact run_blanks (List.all_eq_true.mp List.all_takeWhile)
    have hstop : ∀ c ∈ (cs.dropWhile isBlank).head?, blanks.step c = none := by
      intro c hc
      have := List.head?_dropWhile_not isBlank cs
      rw [Option.mem_def.mp hc] at this
      simpa [step] using this
    rw [lexFrom, hcut, slices_append hblanks rfl hstop]
    rfl
  cases cs with
  | nil => exact hrun hb position []
  | cons c cs =>
    by_cases hc : isBlank c = true
    · rw [hrun hb, hrun hc, List.takeWhile_cons_of_pos hc, List.dropWhile_cons_of_pos hc]
      simp [byteSize, Nat.add_assoc]
    · rw [hrun hb, List.takeWhile_cons_of_neg hc, List.dropWhile_cons_of_neg hc]

/-! ### Tokens come from lexemes -/

def textSize (ss : List Slice) : Nat := byteSize (ss.flatMap Slice.chars)

@[simp] theorem textSize_cons (s : Slice) (ss : List Slice) :
    textSize (s :: ss) = s.size + textSize ss := by
  simp [textSize, Slice.size]

@[simp] theorem textSize_append (ss ss' : List Slice) :
    textSize (ss ++ ss') = textSize ss + textSize ss' := by
  simp [textSize]

section

variable (position : Nat) (pending : Option Nat) (s : Slice)

/-- The tokens that a slice adds: the garbage that ends there, and the token it holds. -/
def Slice.tokens : List Token :=
  match s.kind with
  | none => []
  | some .blank => close pending position
  | some k =>
    close pending position ++ (decode? k s.chars).toList.map fun (k, payload) =>
      ⟨k, position, position + s.size, payload⟩

def Slice.garbageStart? : Option Nat :=
  match s.kind with
  | none => some (pending.getD position)
  | some k => if (decode? k s.chars).isSome then none else some position

theorem tokensFrom_cons (ss : List Slice) :
    tokensFrom position pending (s :: ss) = s.tokens position pending ++
      tokensFrom (position + s.size) (s.garbageStart? position pending) ss := by
  rw [tokensFrom, Slice.tokens, Slice.garbageStart?]
  dsimp only
  split
  · rename_i hk
    rw [hk]
    rfl
  · rename_i hk
    rw [hk]
    rfl
  · rename_i k _ hk
    rw [hk]
    cases hd : decode? k s.chars <;> simp [hd]

end

section

variable {position : Nat} {pending : Option Nat} {s : Slice} {ss : List Slice} {t : Token}

theorem mem_tokens (h : t ∈ s.tokens position pending) :
    t ∈ close pending position ∨ ∃ k, s.kind = some k ∧
      decode? k s.chars = some (t.kind, t.payload) ∧ t.start = position ∧
      t.stop = position + s.size := by
  unfold Slice.tokens at h
  split at h
  · exact nomatch h
  · exact .inl h
  · rename_i k _ hk
    refine (List.mem_append.mp h).imp_right fun h => ?_
    obtain ⟨x, hx, rfl⟩ := List.mem_map.mp h
    exact ⟨k, hk, Option.mem_toList.mp hx, rfl, rfl⟩

theorem eq_garbage_of_mem_close {stop : Nat} (h : t ∈ close pending stop) :
    ∃ start, t = .garbage start stop := by
  obtain ⟨start, -, rfl⟩ := List.mem_map.mp h
  exact ⟨start, rfl⟩

/-- The token is decoded from one of the slices, and it stands where that slice is. -/
def Token.ComesFrom (t : Token) (position : Nat) (ss : List Slice) : Prop :=
  ∃ before s after k, ss = before ++ s :: after ∧ s.kind = some k ∧
    decode? k s.chars = some (t.kind, t.payload) ∧ t.start = position + textSize before ∧
    t.stop = t.start + s.size

theorem comesFrom_of_mem_tokensFrom (h : t ∈ tokensFrom position pending ss) :
    (∃ start stop, t = .garbage start stop) ∨ t.ComesFrom position ss := by
  induction ss generalizing position pending with
  | nil => exact .inl (Exists.imp (fun _ h => ⟨position, h⟩) (eq_garbage_of_mem_close h))
  | cons s ss ih =>
    rw [tokensFrom_cons] at h
    rcases List.mem_append.mp h with h | h
    · obtain h | ⟨k, hk, hd, hstart, hstop⟩ := mem_tokens h
      · exact .inl (Exists.imp (fun _ h => ⟨position, h⟩) (eq_garbage_of_mem_close h))
      · exact .inr ⟨[], s, ss, k, rfl, hk, hd, hstart, by rw [hstop, hstart]⟩
    · refine (ih h).imp_right ?_
      rintro ⟨before, s', after, k, rfl, hk, hd, hstart, hstop⟩
      refine ⟨s :: before, s', after, k, rfl, hk, hd, ?_, hstop⟩
      rw [hstart, textSize_cons, Nat.add_assoc]

theorem comesFrom_of_mem_lex {source : String} (h : t ∈ lex source) (hg : t.kind ≠ .garbage) :
    t.ComesFrom 0 (slices source.toList) := by
  refine (comesFrom_of_mem_tokensFrom h).resolve_left ?_
  rintro ⟨start, stop, rfl⟩
  exact hg rfl

end

end ActionGrammar.GrammarText
