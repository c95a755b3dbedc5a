import Highlight.Proofs.Json.Words
import Highlight.Proofs.Lengths
import Highlight.Proofs.Text.Longest

/-!
# The longest number

A number is measured part by part, and each measure finds the longest part there is: a fraction or
an exponent that lacks its digits is no part at all, and the number ends before it. That the parts
together are the longest number is then a matter of their first characters. No fraction begins with
anything that a signed integer has in it, and no exponent with anything that stands before
exponents, so no number is longer for having had a shorter part.
-/

namespace Highlight.Json

open Grammar
open Text (Apart Followed IsLongest IsLongestFront)

variable {c : Char} {s t : List Char}

def Minus (s : List Char) : Prop := s = [] ∨ s = ['-']

theorem isLongestFront_minus (s : List Char) :
    IsLongestFront Minus s (if Text.startsWith "-" s then 1 else 0) := by
  split_ifs with hsign
  · obtain ⟨t, rfl⟩ := Text.startsWith_iff.1 hsign
    refine Text.isLongestFront_of_length (Nat.succ_pos _) (.inr rfl) ?_
    rintro v - (rfl | rfl) <;> decide
  · refine Text.isLongestFront_of_length (Nat.zero_le _) (.inl List.take_zero) ?_
    rintro v hv (rfl | rfl)
    · exact Nat.le_refl 0
    · have hstart : Text.startsWith "-" s := Text.startsWith_iff.2 hv
      exact absurd hstart hsign

/-- No longer front of the text is an integer. -/
theorem isLongest_integer (s : List Char) : IsLongest Integer s (integerLength s) := by
  have hle := integerLength_le s
  cases s with
  | nil =>
    refine .none fun v hv hinteger ↦ ?_
    obtain rfl := List.prefix_nil.1 hv
    cases hinteger
  | cons c s =>
    rw [integerLength] at hle ⊢
    split_ifs at hle ⊢ with hzero hdigit
    · subst hzero
      refine .front (Text.isLongestFront_of_length hle .zero ?_)
      rintro v hv (_ | ⟨-, hne, -⟩)
      · exact Nat.le_refl 1
      · exact absurd (List.cons_prefix_cons.1 hv).1 hne
    · rw [Nat.add_comm] at hle ⊢
      refine .front (Text.isLongestFront_of_length hle ?_ ?_)
      · exact .positive hdigit hzero Text.forall_mem_take_spanLength
      · rintro v hv (_ | ⟨-, -, hdigits⟩)
        · exact Nat.succ_pos _
        · have hrest := (List.cons_prefix_cons.1 hv).2
          exact Nat.succ_le_succ (Text.length_le_spanLength hrest hdigits)
    · refine .none fun v hv hinteger ↦ hdigit ?_
      obtain ⟨d, t, rfl, hd⟩ := exists_integer_eq_cons hinteger
      rwa [← (List.cons_prefix_cons.1 hv).1]

theorem digits_take (h : Text.spanLength Char.isDigit s ≠ 0) :
    Digits (s.take (Text.spanLength Char.isDigit s)) :=
  ⟨Text.take_spanLength_ne_nil h, Text.forall_mem_take_spanLength⟩

theorem Grammar.Digits.length_bounds (h : Digits t) (r : List Char) :
    0 < t.length ∧ t.length ≤ Text.spanLength Char.isDigit (t ++ r) :=
  ⟨List.length_pos_iff.2 h.1, Text.length_le_spanLength (List.prefix_append t r) h.2⟩

theorem isLongestFront_fraction (s : List Char) :
    IsLongestFront Fraction s (fractionLength s) := by
  apply Text.isLongestFront_of_length (fractionLength_le s)
  · rw [fractionLength]
    split_ifs with hpoint
    · obtain ⟨t, rfl⟩ := Text.startsWith_iff.1 hpoint
      change Fraction (('.' :: t).take (if Text.spanLength Char.isDigit t = 0 then 0 else _))
      split_ifs with hnone
      · exact .absent
      · rw [Nat.add_comm]
        exact .mk (digits_take hnone)
    · exact .absent
  · rintro v ⟨r, rfl⟩ h
    cases h with
    | absent => exact Nat.zero_le _
    | @mk digits hdigits =>
      obtain ⟨hpos, hle⟩ := hdigits.length_bounds r
      have hpoint : Text.startsWith "." ('.' :: digits ++ r) := rfl
      rw [fractionLength, if_pos hpoint]
      simp only [List.cons_append, List.drop_one, List.tail_cons, List.length_cons]
      split_ifs <;> omega

/-- No longer front of the text is an exponent. -/
theorem isLongestFront_exponent (s : List Char) :
    IsLongestFront Exponent s (exponentLength s) := by
  apply Text.isLongestFront_of_length (exponentLength_le s)
  · by_cases hmark : Text.startsIn (fun c ↦ c == 'e' || c == 'E') s
    · obtain ⟨c, t, rfl⟩ := List.exists_cons_of_length_pos (Text.length_pos_of_startsIn hmark)
      have hmark : c = 'e' ∨ c = 'E' := by simpa using hmark
      rw [exponentLength_cons hmark]
      simp only
      split_ifs with hnone
      · exact .absent
      · rw [Nat.add_assoc, Nat.add_comm 1, List.take_succ_cons, List.take_add]
        exact .mk hmark (sign_take t) (digits_take hnone)
    · rw [exponentLength, if_neg hmark]
      exact .absent
  · rintro v ⟨r, rfl⟩ h
    cases h with
    | absent => exact Nat.zero_le _
    | @mk mark sign digits hmark hsign hdigits =>
      obtain ⟨hpos, hle⟩ := hdigits.length_bounds r
      rw [List.cons_append, List.append_assoc, exponentLength_cons hmark,
        signLength_append hsign hdigits, List.drop_left, List.length_cons, List.length_append]
      simp only
      split_ifs <;> omega

theorem apart_minus_integer : Apart Minus Integer := by
  rintro a c (rfl | rfl) hc b hinteger
  · exact absurd hc List.not_mem_nil
  · obtain ⟨d, t, hsplit, hd⟩ := exists_integer_eq_cons hinteger
    rw [← (List.cons.inj hsplit).1, List.mem_singleton.1 hc] at hd
    exact absurd hd (by decide)

theorem mem_signed (h : Followed Minus Integer s) (hc : c ∈ s) : c = '-' ∨ c.isDigit := by
  obtain ⟨minus, integer, rfl, hminus, hinteger⟩ := h
  rcases List.mem_append.1 hc with hc | hc
  · rcases hminus with rfl | rfl
    · exact absurd hc List.not_mem_nil
    · exact .inl (List.mem_singleton.1 hc)
  · right
    cases hinteger with
    | zero => exact List.mem_singleton.1 hc ▸ rfl
    | positive hfirst _ hdigits =>
      rcases List.mem_cons.1 hc with rfl | hc
      · exact hfirst
      · exact hdigits c hc

theorem apart_signed_fraction : Apart (Followed Minus Integer) Fraction := by
  rintro a c ha hc b ⟨-⟩
  obtain hc | hc := mem_signed ha hc <;> exact absurd hc (by decide)

theorem mem_decimal (h : Followed (Followed Minus Integer) Fraction s) (hc : c ∈ s) :
    c = '-' ∨ c.isDigit ∨ c = '.' := by
  obtain ⟨signed, fraction, rfl, hsigned, hfraction⟩ := h
  rcases List.mem_append.1 hc with hc | hc
  · exact (mem_signed hsigned hc).imp_right .inl
  · right
    cases hfraction with
    | absent => exact absurd hc List.not_mem_nil
    | mk hdigits =>
      rcases List.mem_cons.1 hc with rfl | hc
      · exact .inr rfl
      · exact .inl (hdigits.2 c hc)

theorem apart_decimal_exponent : Apart (Followed (Followed Minus Integer) Fraction) Exponent := by
  rintro a c ha hc b hexponent
  have hmark : c = 'e' ∨ c = 'E' := by
    cases hexponent with
    | mk hmark _ _ => exact hmark
  have hnone : ¬ (c = '-' ∨ c.isDigit ∨ c = '.') := by
    rcases hmark with rfl | rfl <;> decide
  exact hnone (mem_decimal ha hc)

theorem number_eq : Number = Followed (Followed (Followed Minus Integer) Fraction) Exponent := by
  funext s
  apply propext
  constructor
  · rintro ⟨hminus, hinteger, hfraction, hexponent⟩
    exact ⟨_, _, rfl, ⟨_, _, rfl, ⟨_, _, rfl, hminus, hinteger⟩, hfraction⟩, hexponent⟩
  · rintro ⟨-, exponent, rfl, ⟨-, fraction, rfl, ⟨minus, integer, rfl, hminus, hinteger⟩,
      hfraction⟩, hexponent⟩
    exact .mk hminus hinteger hfraction hexponent

/-- Without an integer behind the sign there is no number. -/
theorem not_number_of_integerLength {m : Nat} (hminus : IsLongestFront Minus s m)
    (hnone : integerLength (s.drop m) = 0) {v : List Char} (hv : v <+: s) : ¬ Number v := by
  have hinteger := isLongest_integer (s.drop m)
  have hnil : ¬ Integer [] := fun h ↦ by cases h
  rw [hnone] at hinteger
  rw [number_eq]
  rintro ⟨-, exponent, rfl, ⟨signed, fraction, rfl, hsigned, -⟩, -⟩
  rw [List.append_assoc] at hv
  exact hminus.not_followed apart_minus_integer hnil (fun _ ↦ hinteger.not_form hnil)
    ((List.prefix_append _ _).trans hv) hsigned

/-- A number is as long as the longest front of the text that the grammar derives, and nothing is
measured exactly where it derives none. -/
theorem numberLength_eq_iff_longest (s : List Char) (n : Nat) :
    numberLength s = n ↔ IsLongest Number s n := by
  apply IsLongest.eq_iff
  have hminus := isLongestFront_minus s
  rw [numberLength]
  generalize (if Text.startsWith "-" s then 1 else 0) = sign at hminus ⊢
  simp only
  split_ifs with hnone
  · exact .none fun v hv ↦ not_number_of_integerLength hminus hnone hv
  · have hinteger := (isLongest_integer (s.drop sign)).isFront hnone
    have hsigned := hminus.followed hinteger apart_minus_integer
    have hdecimal := hsigned.followed (isLongestFront_fraction _) apart_signed_fraction
    rw [number_eq]
    exact .front (hdecimal.followed (isLongestFront_exponent _) apart_decimal_exponent)

-- The exponent behind a point without digits does not count.
example : numberLength "-0.e1".toList = 2 := by decide

end Highlight.Json
