/-! # Byte positions

Places in a text are counted in bytes of its UTF-8 form. Characters take one
to four bytes, so a stretch of bytes is a stretch of characters.
-/

namespace ActionGrammar

def byteSize : List Char → Nat
  | [] => 0
  | c :: cs => c.utf8Size + byteSize cs

/-- The characters that start in the first `bytes` bytes. -/
def takeBytes : (bytes : Nat) → List Char → List Char
  | _, [] => []
  | bytes, c :: cs => if bytes = 0 then [] else c :: takeBytes (bytes - c.utf8Size) cs

/-- The characters that start after the first `bytes` bytes. -/
def dropBytes : (bytes : Nat) → List Char → List Char
  | _, [] => []
  | bytes, c :: cs => if bytes = 0 then c :: cs else dropBytes (bytes - c.utf8Size) cs

def textBetween (source : String) (start stop : Nat) : String :=
  String.ofList (takeBytes (stop - start) (dropBytes start source.toList))

@[simp] theorem byteSize_append (cs ds : List Char) :
    byteSize (cs ++ ds) = byteSize cs + byteSize ds := by
  induction cs with
  | nil => simp [byteSize]
  | cons c cs ih => simp [byteSize, ih, Nat.add_assoc]

theorem byteSize_toList (s : String) : byteSize s.toList = s.utf8ByteSize := by
  rw [← String.ofList_toList (s := s)]
  generalize s.toList = cs
  induction cs with
  | nil => rfl
  | cons c cs ih =>
    rw [String.toList_ofList] at ih ⊢
    rw [String.ofList_cons, String.utf8ByteSize_append, ← ih]
    simp [byteSize]

theorem takeBytes_byteSize_append (cs ds : List Char) :
    takeBytes (byteSize cs) (cs ++ ds) = cs := by
  induction cs with
  | nil => cases ds <;> rfl
  | cons c cs ih =>
    have := c.utf8Size_pos
    simp only [List.cons_append, byteSize, takeBytes, Nat.add_sub_cancel_left, ih]
    rw [if_neg (by omega)]

theorem dropBytes_byteSize_append (cs ds : List Char) :
    dropBytes (byteSize cs) (cs ++ ds) = ds := by
  induction cs with
  | nil => cases ds <;> rfl
  | cons c cs ih =>
    have := c.utf8Size_pos
    simp only [List.cons_append, byteSize, dropBytes, Nat.add_sub_cancel_left, ih]
    rw [if_neg (by omega)]

theorem textBetween_eq {source : String} {before cs after : List Char}
    (h : source.toList = before ++ (cs ++ after)) :
    textBetween source (byteSize before) (byteSize before + byteSize cs) = String.ofList cs := by
  rw [textBetween, h, dropBytes_byteSize_append, Nat.add_sub_cancel_left,
    takeBytes_byteSize_append]

end ActionGrammar
