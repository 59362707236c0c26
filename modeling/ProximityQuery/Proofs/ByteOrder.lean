import Mathlib

/-!
# Byte order

Texts are ordered by their code points. This is the order of their bytes in UTF-8: the bytes of two
characters differ before either ends, and where they first differ the smaller character has the
smaller byte.
-/

namespace ProximityQuery

/-- The bytes of a text in UTF-8. -/
def utf8 (s : String) : List UInt8 :=
  s.toUTF8.data.toList

/-- The bytes of a text are those of its characters in a row. -/
theorem utf8_eq (s : String) : utf8 s = s.toList.flatMap String.utf8EncodeChar := by
  have hencode : s.toByteArray = s.toList.utf8Encode := String.utf8Encode_toList.symm
  rw [utf8, String.toUTF8_eq_toByteArray, hencode, List.utf8Encode, List.data_toByteArray,
    List.toList_toArray]

/-- Whether one list of bytes is below another at a place where they differ, neither having ended
before. -/
def DiffersBelow : (l m : List UInt8) → Prop
  | a :: l, b :: m => a < b ∨ a = b ∧ DiffersBelow l m
  | _, _ => False

/-- What follows a difference does not matter. -/
theorem DiffersBelow.append_lt {l m : List UInt8} (h : DiffersBelow l m) (l' m' : List UInt8) :
    l ++ l' < m ++ m' := by
  induction l generalizing m with
  | nil => exact h.elim
  | cons a l ih =>
    cases m with
    | nil => exact h.elim
    | cons b m =>
      rw [List.cons_append, List.cons_append, List.cons_lt_cons_iff]
      obtain hlt | ⟨rfl, hrest⟩ := h
      · exact .inl hlt
      · exact .inr ⟨rfl, ih hrest⟩

/-- No code point lies beyond the last plane. -/
theorem toNat_val_lt (c : Char) : c.val.toNat < 0x110000 := by
  rcases c.valid with h | ⟨-, h⟩
  · exact Nat.lt_trans h (by decide)
  · exact h

/-- The bytes of a smaller character are below those of a greater one. -/
theorem differsBelow_utf8EncodeChar {c d : Char} (h : c < d) :
    DiffersBelow (String.utf8EncodeChar c) (String.utf8EncodeChar d) := by
  have hlt : c.val.toNat < d.val.toNat := h
  have hd := toNat_val_lt d
  have hfits : ∀ x, (x % 64 + 128) % 2 ^ 8 = x % 64 + 128 := by omega
  have hthird : ∀ x, x / 4096 = x / 64 / 64 := by omega
  have hfourth : ∀ x, x / 262144 = x / 64 / 64 / 64 := by omega
  simp only [String.utf8EncodeChar]
  generalize c.val.toNat = v at *
  generalize d.val.toNat = w at *
  -- one case for each pair of lengths; the first byte tells the length
  split_ifs <;>
    simp only [DiffersBelow, UInt8.lt_iff_toNat_lt, ← UInt8.toNat_inj, UInt8.toNat_ofNat', hfits,
      hthird, hfourth] <;>
    omega

/-- Every character has at least one byte. -/
theorem utf8EncodeChar_ne_nil (c : Char) : String.utf8EncodeChar c ≠ [] := by
  rw [String.utf8EncodeChar]
  split_ifs <;> simp

/-- The first characters that differ decide the order of the texts and that of their bytes alike. -/
theorem flatMap_utf8EncodeChar_lt {s t : List Char} (h : s < t) :
    s.flatMap String.utf8EncodeChar < t.flatMap String.utf8EncodeChar := by
  induction s generalizing t with
  | nil =>
    cases t with
    | nil => exact absurd h (List.not_lt_nil [])
    | cons d t =>
      obtain ⟨b, rest, hbytes⟩ := List.exists_cons_of_ne_nil (utf8EncodeChar_ne_nil d)
      rw [List.flatMap_nil, List.flatMap_cons, hbytes, List.cons_append]
      exact List.nil_lt_cons b _
  | cons c s ih =>
    cases t with
    | nil => exact absurd h (List.not_lt_nil _)
    | cons d t =>
      rw [List.flatMap_cons, List.flatMap_cons]
      obtain hlt | ⟨rfl, hrest⟩ := List.cons_lt_cons_iff.mp h
      · exact (differsBelow_utf8EncodeChar hlt).append_lt _ _
      · exact List.append_left_lt (ih hrest)

/-- A text before another one has its bytes before those of the other. -/
theorem utf8_lt_of_lt {s t : String} (h : s < t) : utf8 s < utf8 t := by
  rw [utf8_eq, utf8_eq]
  exact flatMap_utf8EncodeChar_lt h

/-- The order of texts is the order of their bytes. -/
theorem utf8_lt_iff {s t : String} : utf8 s < utf8 t ↔ s < t := by
  refine ⟨fun h => ?_, utf8_lt_of_lt⟩
  rcases lt_trichotomy s t with hlt | rfl | hgt
  · exact hlt
  · exact absurd h (List.lt_irrefl _)
  · exact absurd h (List.lt_asymm (utf8_lt_of_lt hgt))

/-- A text is before another one, or the same, just when its bytes are. -/
theorem utf8_le_iff {s t : String} : utf8 s ≤ utf8 t ↔ s ≤ t := by
  rw [← List.not_lt, utf8_lt_iff, not_lt]

end ProximityQuery
