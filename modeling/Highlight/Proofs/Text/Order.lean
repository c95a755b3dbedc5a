import Mathlib.Data.String.Basic

/-!
# The order of texts

Tables of words ascend by the bytes of UTF-8, but a search compares code points. Both orders are
the same. The first byte of a character tells how many bytes there are, and greater code points
have no fewer of them; of two characters with equally many bytes, these hold the digits of the code
points to base 64, the highest one first.
-/

namespace Highlight.Text

/-- The bytes of the text in UTF-8. -/
def bytes (s : List Char) : List UInt8 := s.flatMap String.utf8EncodeChar

theorem bytes_cons (c : Char) (s : List Char) :
    bytes (c :: s) = String.utf8EncodeChar c ++ bytes s :=
  List.flatMap_cons

/-- A greater character has greater bytes, whatever stands behind either of them. -/
theorem utf8EncodeChar_append_lt {c d : Char} (h : c < d) (u v : List UInt8) :
    String.utf8EncodeChar c ++ u < String.utf8EncodeChar d ++ v := by
  have hlt : c.val.toNat < d.val.toNat := h
  have hlast : d.val.toNat < 0x110000 := by
    have hvalid : d.val.toNat.isValidChar := d.valid
    rw [Nat.isValidChar] at hvalid
    omega
  have hsecond (n : Nat) : n / 4096 = n / 64 / 64 := by omega
  have hthird (n : Nat) : n / 262144 = n / 64 / 64 / 64 := by omega
  simp only [String.utf8EncodeChar, hsecond, hthird]
  -- One case for each pair of sizes.
  split_ifs
  all_goals
    simp only [List.cons_append, List.nil_append, List.cons_lt_cons_iff, UInt8.lt_iff_toNat_lt,
      ← UInt8.toNat_inj, UInt8.toNat_ofNat']
    omega

/-- The order of code points is that of their bytes in UTF-8. -/
theorem bytes_lt_bytes {s t : List Char} (h : s < t) : bytes s < bytes t := by
  replace h := (List.lt_iff_lex_lt s t).1 h
  induction h with
  | @nil d t =>
    rw [bytes_cons]
    obtain ⟨b, u, hd⟩ := List.exists_cons_of_ne_nil (String.utf8EncodeChar_ne_nil (c := d))
    rw [hd]
    exact List.nil_lt_cons b _
  | rel hlt =>
    rw [bytes_cons, bytes_cons]
    exact utf8EncodeChar_append_lt hlt _ _
  | cons _ ih =>
    rw [bytes_cons, bytes_cons]
    exact List.append_left_lt ih

/-- Texts stand in the order of their bytes. -/
theorem bytes_lt_bytes_iff {s t : List Char} : bytes s < bytes t ↔ s < t := by
  refine ⟨fun h ↦ ?_, bytes_lt_bytes⟩
  rcases lt_trichotomy s t with hlt | rfl | hgt
  · exact hlt
  · exact absurd h (List.lt_irrefl _)
  · exact absurd h (List.lt_asymm (bytes_lt_bytes hgt))

end Highlight.Text
