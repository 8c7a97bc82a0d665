import ActionGrammar.Proofs.Decimal.Reading

/-! # The digits of a double

Whichever decimal is chosen for a positive double, it reads back as that double. A greater
decimal is never read as a smaller double, and so the double alone tells whether the point is
within reach of its digits.
-/

namespace ActionGrammar.Decimal

section

variable {q : ℚ} {d : Decimal} {x : Float}

/-! ### Reading back -/

theorem IsNearest.magnitude_eq (h : IsNearest q x) (hx : IsFinite x) : magnitude x = nearest q := by
  rcases lt_or_ge (nearest q) (2 ^ 1024) with hlt | hge
  · exact (h.finite hlt).2.2
  · exact absurd (h.infinite hge ▸ hx) not_isFinite_infinity

theorem significand_pos (hx : IsPositive x) (h : d.toFloat = x) : 0 < d.significand := by
  refine Nat.pos_of_ne_zero fun hzero => ?_
  have hpos := hx.pos
  rw [← h, toFloat, if_pos hzero, parts_zero.2.2] at hpos
  exact Nat.lt_irrefl 0 hpos

theorem magnitude_of_toFloat (hx : IsPositive x) (h : d.toFloat = x) :
    magnitude x = nearest d.value := by
  have hnearest := isNearest_value (significand_pos hx h)
  rw [h] at hnearest
  exact hnearest.magnitude_eq hx.finite

theorem magnitude_mono {d' : Decimal} {y : Float} (hx : IsPositive x) (hy : IsPositive y)
    (hd : d.toFloat = x) (hd' : d'.toFloat = y) (h : d.value ≤ d'.value) :
    magnitude x ≤ magnitude y := by
  rw [magnitude_of_toFloat hx hd, magnitude_of_toFloat hy hd']
  exact nearest_mono (value_pos (significand_pos hx hd)) h

theorem toFloat_neighbour? {num den : ℕ} {k : ℤ} (hx : IsPositive x)
    (h : neighbour? x num den k = some d) : d.toFloat = x := by
  unfold neighbour? at h
  dsimp only at h
  generalize (if k < 0 then num * Nat.pow 10 k.natAbs else num) = a at h
  generalize (if k < 0 then den else den * Nat.pow 10 k.natAbs) = b at h
  split at h
  · rename_i hbelow habove
    split at h
    · cases h
      exact eq_of_beq hx hbelow
    · cases h
      exact eq_of_beq hx habove
  · rename_i hbelow _
    cases h
    exact eq_of_beq hx hbelow
  · rename_i _ habove
    cases h
    exact eq_of_beq hx habove
  · cases h

theorem value_exact (x : Float) : (exact x).value = magnitude x := by
  unfold exact magnitude
  split
  · rename_i m e heq
    simp [value, heq]
  · rename_i m e heq
    have hpow : (10 : ℚ) ^ (e + 1) = 2 ^ (e + 1) * 5 ^ (e + 1) := by
      rw [← mul_pow]
      norm_num
    simp only [value, heq, zpow_negSucc, hpow, Nat.pow_eq]
    push_cast
    field_simp

theorem toFloat_exact (hx : IsPositive x) : (exact x).toFloat = x := by
  have hpos : 0 < (exact x).significand := by
    apply significand_pos_of_value
    rw [value_exact]
    exact hx.magnitude_pos
  have hnearest := isNearest_value hpos
  rw [value_exact] at hnearest
  exact hnearest.unique hx.isNearest

/-- The digits that are chosen for a positive double read back as that double. -/
theorem toFloat_shortest (hx : IsPositive x) : (shortest x).toFloat = x := by
  unfold shortest
  dsimp only
  generalize hfound : List.findSome? _ (List.range 17) = found
  cases found with
  | none => exact toFloat_exact hx
  | some d =>
    obtain ⟨n, -, hn⟩ := List.exists_of_findSome?_eq_some hfound
    exact toFloat_neighbour? hx hn

/-! ### The place of the point -/

theorem le_value_shortest_iff (hx : IsPositive x) (hd : IsPositive d.toFloat)
    (hself : shortest d.toFloat = d) (hle : d.value ≤ magnitude d.toFloat) :
    d.value ≤ (shortest x).value ↔ d.value ≤ magnitude x := by
  have hread := toFloat_shortest hx
  constructor
  · intro h
    exact hle.trans (magnitude_mono hd hx rfl hread h)
  · intro h
    -- Digits below the bound make the double the one next to it, for which the bound is chosen.
    by_contra hlt
    have hlow : magnitude x ≤ magnitude d.toFloat :=
      magnitude_mono hx hd hread rfl (le_of_not_ge hlt)
    have hhigh : magnitude d.toFloat ≤ magnitude x := by
      rw [← value_exact] at h
      exact magnitude_mono hd hx rfl (toFloat_exact hx) h
    have heq : x = d.toFloat := eq_of_magnitude (hx.sign.trans hd.sign.symm) (hlow.antisymm hhigh)
    rw [heq, hself] at hlt
    exact hlt (le_refl _)

theorem pow_le_value_shortest_iff (hx : IsPositive x) {z e : ℤ} {m : ℕ}
    (hparts : IsFinite (toFloat ⟨1, z⟩) ∧ isNegative (toFloat ⟨1, z⟩) = false ∧
      binaryParts (toFloat ⟨1, z⟩) = (m, e))
    (hself : shortest (toFloat ⟨1, z⟩) = ⟨1, z⟩) (hm : 0 < m) (hle : (10 ^ z : ℚ) ≤ m * 2 ^ e) :
    10 ^ z ≤ (shortest x).value ↔ 10 ^ z ≤ magnitude x := by
  obtain ⟨hfinite, hs, hparts⟩ := hparts
  have hvalue : value ⟨1, z⟩ = 10 ^ z := by rw [value, Nat.cast_one, one_mul]
  have hmagnitude : magnitude (toFloat ⟨1, z⟩) = m * 2 ^ e := by rw [magnitude, hparts]
  rw [← hvalue, ← hmagnitude] at hle
  rw [← hvalue]
  exact le_value_shortest_iff hx ⟨hfinite, hs, by rwa [hparts]⟩ hself hle

theorem point_shortest_iff (hx : IsPositive x) :
    -3 ≤ point (shortest x) ∧ point (shortest x) ≤ 16 ↔
      10 ^ (-4 : ℤ) ≤ magnitude x ∧ magnitude x < 10 ^ 16 := by
  have hpos := significand_pos hx (toFloat_shortest hx)
  have hlow : -3 ≤ point (shortest x) ↔ 10 ^ (-4 : ℤ) ≤ (shortest x).value := by
    rw [← not_lt, ← not_lt, value_lt_iff hpos]
    omega
  have hlow' : (10 ^ (-4 : ℤ) : ℚ) ≤ (shortest x).value ↔ 10 ^ (-4 : ℤ) ≤ magnitude x := by
    apply @pow_le_value_shortest_iff x hx (-4) (-66) 7378697629483821
    · exact ⟨by decide, rfl, rfl⟩
    · rfl
    · decide
    · norm_num
  have hhigh : (10 ^ (16 : ℤ) : ℚ) ≤ (shortest x).value ↔ 10 ^ (16 : ℤ) ≤ magnitude x := by
    apply @pow_le_value_shortest_iff x hx 16 1 5000000000000000
    · exact ⟨by decide, rfl, rfl⟩
    · rfl
    · decide
    · norm_num
  rw [hlow, hlow', ← value_lt_iff hpos, ← not_le, hhigh, not_le]
  norm_num

end

end ActionGrammar.Decimal
