import Mathlib.Data.String.Basic

/-!
# The order of names is the order of their bytes

Names are compared character by character, by code point. Where names are kept as bytes they are
compared byte by byte. For UTF-8 the two are the same (`lt_iff_utf8Bytes_lt`): of two characters
the one with the lower code point has the lower bytes, whatever follows them.
-/

namespace Gazetteer

/-- The UTF-8 bytes of a text. -/
def utf8Bytes (s : String) : List UInt8 := s.toUTF8.data.toList

/-! ## Characters -/

theorem cons_byte_lt_cons_iff {a b : Nat} {xs ys : List UInt8} (ha : a < 256) (hb : b < 256) :
    UInt8.ofNat a :: xs < UInt8.ofNat b :: ys ↔ a < b ∨ a = b ∧ xs < ys := by
  rw [List.cons_lt_cons_iff, UInt8.lt_iff_toNat_lt, ← UInt8.toNat_inj,
    UInt8.toNat_ofNat_of_lt' ha, UInt8.toNat_ofNat_of_lt' hb]

theorem codePoint_lt (c : Char) : c.val.toNat < 0x110000 := by
  have hvalid := c.valid
  simp only [UInt32.isValidChar, Nat.isValidChar] at hvalid
  omega

/-- The bytes of a character come before those of every later character, whatever follows. -/
theorem utf8EncodeChar_append_lt {c d : Char} (h : c < d) (xs ys : List UInt8) :
    String.utf8EncodeChar c ++ xs < String.utf8EncodeChar d ++ ys := by
  have hc := codePoint_lt c
  have hd := codePoint_lt d
  have hlt : c.val.toNat < d.val.toNat := h
  -- the bytes after the first are the digits of the code point in base 64
  have hdigits : ∀ n, n / 4096 = n / 64 / 64 ∧ n / 262144 = n / 64 / 64 / 64 := by omega
  unfold String.utf8EncodeChar
  generalize c.val.toNat = v at hc hlt ⊢
  generalize d.val.toNat = w at hd hlt ⊢
  simp only [hdigits]
  -- if the characters take different numbers of bytes the first byte decides
  split_ifs
  all_goals simp (disch := omega) only [List.cons_append, List.nil_append, cons_byte_lt_cons_iff]
  all_goals omega

theorem nil_lt_utf8EncodeChar_append (c : Char) (xs : List UInt8) :
    [] < String.utf8EncodeChar c ++ xs := by
  have hlength : (String.utf8EncodeChar c).length = c.utf8Size := String.length_utf8EncodeChar c
  have hpos : 0 < c.utf8Size := c.utf8Size_pos
  cases hbytes : String.utf8EncodeChar c with
  | nil =>
    rw [hbytes, List.length_nil] at hlength
    omega
  | cons b bytes => exact List.nil_lt_cons b (bytes ++ xs)

/-! ## Texts -/

theorem utf8Bytes_eq_flatMap (s : String) :
    utf8Bytes s = s.toList.flatMap String.utf8EncodeChar := by
  conv_lhs => rw [utf8Bytes, ← String.ofList_toList (s := s), String.toUTF8_eq_toByteArray]
  exact List.toList_data_toByteArray

theorem flatMap_utf8EncodeChar_lt {a b : List Char} (h : a < b) :
    a.flatMap String.utf8EncodeChar < b.flatMap String.utf8EncodeChar := by
  induction h with
  | nil => exact nil_lt_utf8EncodeChar_append _ _
  | cons _ ih => exact List.append_left_lt ih
  | rel hlt => exact utf8EncodeChar_append_lt hlt _ _

theorem utf8Bytes_lt {a b : String} (h : a < b) : utf8Bytes a < utf8Bytes b := by
  rw [utf8Bytes_eq_flatMap, utf8Bytes_eq_flatMap]
  exact flatMap_utf8EncodeChar_lt (String.lt_iff_toList_lt.mp h)

/-- **The order of texts is the order of their bytes.** -/
theorem lt_iff_utf8Bytes_lt {a b : String} : a < b ↔ utf8Bytes a < utf8Bytes b := by
  refine ⟨utf8Bytes_lt, fun h => ?_⟩
  rcases lt_trichotomy a b with hlt | rfl | hgt
  · exact hlt
  · exact absurd h (List.lt_irrefl _)
  · exact absurd (utf8Bytes_lt hgt) (List.lt_asymm h)

end Gazetteer
