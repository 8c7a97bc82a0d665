import ActionGrammar.Value.Store
import Mathlib.Data.List.Forall2

/-! # Renaming objects

Two runs that create objects at different times give them different
identities. A renaming relates the identities of one store to those of another
one, whose payloads then agree. An effect follows another one if it does the
same up to a renaming.
-/

namespace ActionGrammar

/-- Relates the identities of objects in two stores. -/
def Renaming : Type := Nat → Nat → Prop

namespace Renaming

instance : LE Renaming := ⟨fun r r' => ∀ i j, r i j → r' i j⟩

variable {r r' r'' : Renaming}

theorem le_refl (r : Renaming) : r ≤ r := fun _ _ h => h

theorem le_trans (h : r ≤ r') (h' : r' ≤ r'') : r ≤ r'' := fun i j hij => h' i j (h i j hij)

def insert (r : Renaming) (i j : Nat) : Renaming := fun i' j' => r i' j' ∨ i' = i ∧ j' = j

theorem le_insert (r : Renaming) (i j : Nat) : r ≤ r.insert i j := fun _ _ => .inl

end Renaming

/-- How payloads agree when the objects that they hold are renamed. -/
class Renameable (π : Type) where
  Agree : Renaming → π → π → Prop
  mono : ∀ {r r' : Renaming} {p q : π}, r ≤ r' → Agree r p q → Agree r' p q

/-- The same value, or objects of one type whose identities are related. -/
inductive Value.Renamed (r : Renaming) : Value → Value → Prop
  | plain {v : Value} : v.asObject? = none → Renamed r v v
  | object {i j : Nat} {t : NativeType} : r i j → Renamed r (.object ⟨i, t⟩) (.object ⟨j, t⟩)

namespace Value

variable {r r' : Renaming} {v w : Value}

theorem Renamed.mono (hr : r ≤ r') (h : v.Renamed r w) : v.Renamed r' w := by
  cases h with
  | plain h => exact .plain h
  | object h => exact .object (hr _ _ h)

theorem renamed_getD {v w : Option Value} (h : Option.Rel (Renamed r) v w) :
    (v.getD .null).Renamed r (w.getD .null) := by
  cases h with
  | none => exact .plain rfl
  | some h => exact h

theorem Renamed.isNull_eq (h : v.Renamed r w) : v.isNull = w.isNull := by
  cases h <;> rfl

end Value

namespace Store

variable {π : Type}

/-- No object of the first store is changed in the second one. -/
instance : LE (Store π) :=
  ⟨fun s t => ∀ (i : Nat) (p : π), s.cells[i]? = some p → t.cells[i]? = some p⟩

variable {s t u : Store π}

theorem le_refl (s : Store π) : s ≤ s := fun _ _ h => h

theorem le_trans (h : s ≤ t) (h' : t ≤ u) : s ≤ u := fun i p hp => h' i p (h i p hp)

theorem le_push (s : Store π) (p : π) : s ≤ ⟨s.cells.push p⟩ := by
  intro i q hq
  obtain ⟨hi, rfl⟩ := Array.getElem?_eq_some_iff.mp hq
  exact Array.getElem?_push_lt hi

def identity (s : Store π) : Renaming := fun i j => i = j ∧ i < s.cells.size

variable [Renameable π] {r r' : Renaming}

/-- Related objects of the two stores have payloads that agree. -/
structure Renamed (r : Renaming) (s t : Store π) : Prop where
  functional : ∀ {i j j'}, r i j → r i j' → j = j'
  injective : ∀ {i i' j}, r i j → r i' j → i = i'
  payload : ∀ {i j}, r i j →
    ∃ p q, s.cells[i]? = some p ∧ t.cells[j]? = some q ∧ Renameable.Agree r p q

def IsClosed (s : Store π) : Prop :=
  ∀ (i : Nat) (p : π), s.cells[i]? = some p → Renameable.Agree s.identity p p

theorem IsClosed.renamed (h : s.IsClosed) : s.Renamed s.identity s where
  functional := fun ⟨hi, _⟩ ⟨hj, _⟩ => hi.symm.trans hj
  injective := fun ⟨hi, _⟩ ⟨hj, _⟩ => hi.trans hj.symm
  payload := by
    rintro i _ ⟨rfl, hi⟩
    exact ⟨_, _, Array.getElem?_eq_getElem hi, Array.getElem?_eq_getElem hi,
      h _ _ (Array.getElem?_eq_getElem hi)⟩

theorem Renamed.of_le (h : s.Renamed r t) (hs : s ≤ u) : u.Renamed r t where
  functional := h.functional
  injective := h.injective
  payload hr := by
    obtain ⟨p, q, hp, hq, ha⟩ := h.payload hr
    exact ⟨p, q, hs _ _ hp, hq, ha⟩

theorem Renamed.of_le_right (h : s.Renamed r t) (ht : t ≤ u) : s.Renamed r u where
  functional := h.functional
  injective := h.injective
  payload hr := by
    obtain ⟨p, q, hp, hq, ha⟩ := h.payload hr
    exact ⟨p, q, hp, ht _ _ hq, ha⟩

theorem Renamed.lt_size {i j : Nat} (h : s.Renamed r t) (hr : r i j) :
    i < s.cells.size ∧ j < t.cells.size := by
  obtain ⟨p, q, hp, hq, -⟩ := h.payload hr
  obtain ⟨hi, -⟩ := Array.getElem?_eq_some_iff.mp hp
  obtain ⟨hj, -⟩ := Array.getElem?_eq_some_iff.mp hq
  exact ⟨hi, hj⟩

theorem Renamed.push {p q : π} (h : s.Renamed r t) (ha : Renameable.Agree r p q) :
    Renamed (r.insert s.cells.size t.cells.size) ⟨s.cells.push p⟩ ⟨t.cells.push q⟩ where
  functional := by
    rintro i j j' (hij | ⟨rfl, rfl⟩) (hij' | ⟨hi, rfl⟩)
    · exact h.functional hij hij'
    · have := h.lt_size hij
      omega
    · have := h.lt_size hij'
      omega
    · rfl
  injective := by
    rintro i i' j (hij | ⟨rfl, rfl⟩) (hij' | ⟨rfl, hj⟩)
    · exact h.injective hij hij'
    · have := h.lt_size hij
      omega
    · have := h.lt_size hij'
      omega
    · rfl
  payload := by
    have hr := r.le_insert s.cells.size t.cells.size
    rintro i j (hij | ⟨rfl, rfl⟩)
    · obtain ⟨p', q', hp, hq, ha⟩ := h.payload hij
      exact ⟨p', q', le_push s p _ _ hp, le_push t q _ _ hq, Renameable.mono hr ha⟩
    · exact ⟨p, q, Array.getElem?_push_size, Array.getElem?_push_size, Renameable.mono hr ha⟩

end Store

namespace Effect

variable {π ε α β : Type}

def Keeps (x : Effect π ε α) : Prop := ∀ s a t, x.runFrom s = (.ok a, t) → s ≤ t

theorem Keeps.pure (a : α) : Keeps (pure a : Effect π ε α) := by
  rintro s _ _ ⟨⟩
  exact Store.le_refl s

theorem Keeps.throw (e : ε) : Keeps (throw e : Effect π ε α) := by
  rintro s _ _ ⟨⟩

theorem Keeps.bind {x : Effect π ε α} {f : α → Effect π ε β} (hx : Keeps x)
    (hf : ∀ a, Keeps (f a)) : Keeps (x >>= f) := by
  intro s b u h
  obtain ⟨a, t, ha, hb⟩ := Attempt.runFrom_bind_eq_ok_iff.mp h
  exact Store.le_trans (hx s a t ha) (hf a t b u hb)

theorem runFrom_mapError_eq_ok {ε' : Type} {f : ε → ε'} {x : Effect π ε α} {s t : Store π} {a : α} :
    (Attempt.mapError f x).runFrom s = (.ok a, t) ↔ x.runFrom s = (.ok a, t) := by
  rw [Attempt.runFrom_mapError]
  rcases x.runFrom s with ⟨_ | b, u⟩ <;> simp [Except.mapError]

theorem Keeps.mapError {ε' : Type} {f : ε → ε'} {x : Effect π ε α} (hx : Keeps x) :
    Keeps (Attempt.mapError f x) :=
  fun s a t h => hx s a t (runFrom_mapError_eq_ok.mp h)

variable [Renameable π] {r : Renaming} {s t : Store π} {V : Renaming → α → α → Prop}
  {W : Renaming → β → β → Prop}

/-- If the first effect succeeds, so does the second one, and the results and the stores agree up to
a renaming. -/
def Follows (V : Renaming → α → α → Prop) (r : Renaming) (s t : Store π) (x y : Effect π ε α) :
    Prop :=
  ∀ a s', x.runFrom s = (.ok a, s') →
    ∃ b t' r', y.runFrom t = (.ok b, t') ∧ r ≤ r' ∧ s'.Renamed r' t' ∧ V r' a b

theorem Follows.pure {a b : α} (h : s.Renamed r t) (hab : V r a b) :
    Follows V r s t (pure a : Effect π ε α) (pure b) := by
  rintro _ _ ⟨⟩
  exact ⟨b, t, r, rfl, r.le_refl, h, hab⟩

theorem Follows.throw {e : ε} {y : Effect π ε α} : Follows V r s t (throw e) y := by
  rintro _ _ ⟨⟩

theorem Follows.bind {x y : Effect π ε α} {f g : α → Effect π ε β} (hx : Follows V r s t x y)
    (hf : ∀ r' s' t' a b, r ≤ r' → s'.Renamed r' t' → V r' a b →
      Follows W r' s' t' (f a) (g b)) : Follows W r s t (x >>= f) (y >>= g) := by
  intro c u h
  obtain ⟨a, s', ha, hc⟩ := Attempt.runFrom_bind_eq_ok_iff.mp h
  obtain ⟨b, t', r', hb, hr, hst, hab⟩ := hx a s' ha
  obtain ⟨d, u', r'', hd, hr', hst', hcd⟩ := hf r' s' t' a b hr hst hab c u hc
  exact ⟨d, u', r'', Attempt.runFrom_bind_eq_ok_iff.mpr ⟨b, t', hb, hd⟩,
    Renaming.le_trans hr hr', hst', hcd⟩

theorem Follows.agree {x y : Effect π ε α} {a b : α} {s' t' : Store π} (h : Follows V r s t x y)
    (hx : x.runFrom s = (.ok a, s')) (hy : y.runFrom t = (.ok b, t')) :
    ∃ r', r ≤ r' ∧ s'.Renamed r' t' ∧ V r' a b := by
  obtain ⟨b', t'', r', hy', hr, hst, hab⟩ := h a s' hx
  cases hy.symm.trans hy'
  exact ⟨r', hr, hst, hab⟩

theorem Follows.mapError {ε' : Type} {f : ε → ε'} {x y : Effect π ε α} (h : Follows V r s t x y) :
    Follows V r s t (Attempt.mapError f x) (Attempt.mapError f y) := by
  intro a s' ha
  obtain ⟨b, t', r', hb, hr⟩ := h a s' (runFrom_mapError_eq_ok.mp ha)
  exact ⟨b, t', r', runFrom_mapError_eq_ok.mpr hb, hr⟩

end Effect

end ActionGrammar
