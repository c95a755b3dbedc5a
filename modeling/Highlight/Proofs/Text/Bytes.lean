import Mathlib.Data.List.Infix
import Highlight.Text.Basic

/-!
# Bytes and characters

A place in a text is a number of bytes, but a text can be cut only between two characters. The
boundaries are the lengths of its front parts, and a slice between two of them is exactly what
stands there.
-/

namespace Highlight.Text

theorem byteLength_eq_length {s : List Char} (h : ∀ c ∈ s, c.utf8Size = 1) :
    byteLength s = s.length := by
  induction s with
  | nil => rfl
  | cons c s ih =>
    rw [List.forall_mem_cons] at h
    rw [byteLength_cons, h.1, ih h.2, List.length_cons, Nat.add_comm]

/-- The byte stands between two characters of the text or at one of its ends. -/
def IsBoundary (s : List Char) (n : Nat) : Prop := ∃ front, front <+: s ∧ n = byteLength front

theorem IsBoundary.le {s : List Char} {n : Nat} (h : IsBoundary s n) : n ≤ byteLength s := by
  obtain ⟨front, ⟨rest, rfl⟩, rfl⟩ := h
  rw [byteLength_append]
  exact Nat.le_add_right _ _

theorem isBoundary_append (front rest : List Char) :
    IsBoundary (front ++ rest) (byteLength front) :=
  ⟨front, List.prefix_append _ _, rfl⟩

theorem charsFrom_append (n : Nat) (front rest : List Char) :
    charsFrom n (byteLength front) (front ++ rest) = n + front.length := by
  induction front generalizing n with
  | nil => simp [charsFrom]
  | cons c front ih =>
    obtain ⟨size, hsize⟩ := Nat.exists_eq_succ_of_ne_zero (Nat.ne_of_gt c.utf8Size_pos)
    have hbytes : byteLength (c :: front) = (size + byteLength front) + 1 := by
      rw [byteLength_cons, hsize]
      omega
    have hrest : size + byteLength front + 1 - c.utf8Size = byteLength front := by omega
    calc
      _ = charsFrom (n + 1) (byteLength front) (front ++ rest) := by
        rw [hbytes, List.cons_append, charsFrom, hrest]
        exact Nat.succ_ne_zero _
      _ = n + 1 + front.length := ih (n + 1)
      _ = n + (c :: front).length := by
        rw [List.length_cons]
        omega

theorem charsIn_append (front rest : List Char) :
    charsIn (byteLength front) (front ++ rest) = front.length := by
  rw [charsIn, charsFrom_append, Nat.zero_add]

/-- A slice between two boundaries is what stands between them. -/
theorem slice_append (front middle rest : List Char) :
    slice (front ++ (middle ++ rest)) (byteLength front) (byteLength (front ++ middle)) =
      middle := by
  have hlength : byteLength (front ++ middle) - byteLength front = byteLength middle := by
    rw [byteLength_append, Nat.add_sub_cancel_left]
  unfold slice
  simp only
  rw [charsIn_append, List.drop_left, hlength, charsIn_append, List.take_left]

end Highlight.Text
