import Highlight.Proofs.CFamily.Steady
import Highlight.Proofs.Text.Longest

/-!
# The longest preprocessing number

A preprocessing number grows from left to right, by one or two characters at a time, and the loop
that measures it takes the same steps without ever going back. It passes every place where the
grammar may stop except for one: behind the letter of an exponent whose sign follows, since it takes
both at once. No number goes on with a sign from there, so the loop has passed whatever can be
derived, and the number that it stops behind is the longest.
-/

namespace Highlight.CFamily

open Text (IsLongest)

variable {c : Char} {s t u : List Char}

/-- What a number may go on with. -/
inductive Continuation : List Char → Prop
  | word {c : Char} : c.isAlphanum ∨ c = '_' → Continuation [c]
  | point : Continuation ['.']
  | exponent {mark sign : Char} : mark ∈ ['e', 'E', 'p', 'P'] → sign ∈ ['+', '-'] →
      Continuation [mark, sign]
  | separated {c : Char} : c.isAlphanum ∨ c = '_' → Continuation ['\'', c]

inductive PpNumber : List Char → Prop
  | digit {c : Char} : c.isDigit → PpNumber [c]
  | point {c : Char} : c.isDigit → PpNumber ['.', c]
  | more {s t : List Char} : PpNumber s → Continuation t → PpNumber (s ++ t)

theorem PpNumber.ne_nil (h : PpNumber s) : s ≠ [] := by
  induction h with
  | digit _ => exact List.cons_ne_nil _ _
  | point _ => exact List.cons_ne_nil _ _
  | more _ _ ih => exact List.append_ne_nil_of_left_ne_nil ih _

theorem isWordChar_iff : isWordChar c ↔ c.isAlphanum ∨ c = '_' := by
  simp [isWordChar]

theorem isExponentMark_iff : isExponentMark c ↔ c ∈ ['e', 'E', 'p', 'P'] := by
  simp [isExponentMark, or_assoc]

theorem isSign_iff : isSign c ↔ c ∈ ['+', '-'] := by
  simp [isSign]

theorem numberLengthFrom_exponent {mark : Char} (hmark : isExponentMark mark)
    (hsign : Text.startsIn isSign s) (n : Nat) :
    numberLengthFrom n (mark :: s) = numberLengthFrom (n + 2) (s.drop 1) := by
  rw [numberLengthFrom_cons, hmark, hsign]
  rfl

/-- A character that belongs to the number is passed, unless it goes together with a sign. -/
theorem numberLengthFrom_part (hc : isWordChar c || c == '.')
    (hsign : (isExponentMark c && Text.startsIn isSign s) = false) (n : Nat) :
    numberLengthFrom n (c :: s) = numberLengthFrom (n + 1) s := by
  rw [numberLengthFrom_cons, hsign, hc]
  rfl

/-- The loop passes a continuation, or passes the sign of its exponent as well. -/
theorem Continuation.passed (h : Continuation t) (n : Nat) (r : List Char) :
    numberLengthFrom n (t ++ r) = numberLengthFrom (n + t.length) r ∨
      Text.startsIn isSign r ∧ n + t.length < numberLengthFrom n (t ++ r) := by
  cases h with
  | @word c hc =>
    rw [List.singleton_append, List.length_singleton]
    by_cases hsign : isExponentMark c && Text.startsIn isSign r
    · right
      rw [Bool.and_eq_true] at hsign
      rw [numberLengthFrom_exponent hsign.1 hsign.2]
      exact ⟨hsign.2, le_numberLengthFrom _ _⟩
    · left
      rw [Bool.not_eq_true] at hsign
      exact numberLengthFrom_part (by rw [isWordChar_iff.2 hc, Bool.true_or]) hsign n
  | point => exact .inl (numberLengthFrom_part rfl rfl n)
  | @exponent mark sign hmark hsign =>
    left
    have hbehind : Text.startsIn isSign (sign :: r) := isSign_iff.2 hsign
    exact numberLengthFrom_exponent (isExponentMark_iff.2 hmark) hbehind n
  | @separated c hc =>
    left
    have hword : Text.startsIn isWordChar (c :: r) := isWordChar_iff.2 hc
    have hquote : (isWordChar '\'' || '\'' == '.') = false := by decide
    rw [List.cons_append, List.singleton_append, numberLengthFrom_cons, hword, hquote]
    rfl

/-- No continuation begins with a sign. -/
theorem Continuation.startsIn_sign (h : Continuation t) (r : List Char) :
    Text.startsIn isSign (t ++ r) = false := by
  cases h with
  | @word c hc =>
    rw [List.singleton_append, Text.startsIn_cons, Bool.eq_false_iff]
    intro hsign
    obtain rfl | rfl : c = '+' ∨ c = '-' := by simpa using isSign_iff.1 hsign
    · exact absurd hc (by decide)
    · exact absurd hc (by decide)
  | point => rfl
  | @exponent mark _ hmark _ =>
    obtain rfl | rfl | rfl | rfl : mark = 'e' ∨ mark = 'E' ∨ mark = 'p' ∨ mark = 'P' := by
      simpa using hmark
    all_goals rfl
  | separated _ => rfl

/-- The loop comes to the end of every number in front of the text, or has gone past it where a sign
follows. -/
theorem PpNumber.passed (h : PpNumber u) (r : List Char) :
    numberLength (u ++ r) = numberLengthFrom u.length r ∨
      Text.startsIn isSign r ∧ u.length < numberLength (u ++ r) := by
  induction h generalizing r with
  | digit hc =>
    left
    rw [List.singleton_append, numberLength, hc]
    rfl
  | @point c hc =>
    left
    have hdigit : Text.startsIn Char.isDigit (c :: r) := hc
    rw [List.cons_append, List.singleton_append, numberLength, hdigit]
    exact numberLengthFrom_digit hc 1 r
  | @more s t _ ht ih =>
    rw [List.append_assoc, List.length_append]
    rcases ih (t ++ r) with hs | ⟨hsign, -⟩
    · rw [hs]
      exact ht.passed s.length r
    · rw [ht.startsIn_sign] at hsign
      exact absurd hsign Bool.false_ne_true

theorem PpNumber.length_le (h : PpNumber u) (r : List Char) :
    u.length ≤ numberLength (u ++ r) := by
  rcases h.passed r with hsame | ⟨-, hlt⟩
  · rw [hsame]
    exact le_numberLengthFrom u.length r
  · exact Nat.le_of_lt hlt

/-- A number of `n` characters that the text stands behind goes on in it until it has `m`. -/
def GoesOn (n m : Nat) (s : List Char) : Prop :=
  ∃ t r, s = t ++ r ∧ m = n + t.length ∧ ∀ u, PpNumber u → PpNumber (u ++ t)

theorem goesOn_self (n : Nat) (s : List Char) : GoesOn n n s :=
  ⟨[], s, rfl, rfl, fun s hs ↦ by rwa [List.append_nil]⟩

theorem Continuation.goesOn {n m : Nat} (h : Continuation t) (hs : GoesOn (n + t.length) m s) :
    GoesOn n m (t ++ s) := by
  obtain ⟨u, r, rfl, rfl, hu⟩ := hs
  refine ⟨t ++ u, r, (List.append_assoc t u r).symm, ?_, fun s hs ↦ ?_⟩
  · rw [List.length_append, Nat.add_assoc]
  · rw [← List.append_assoc]
    exact hu _ (.more hs h)

/-- The loop takes only what a number may go on with. -/
theorem goesOn_numberLengthFrom (n : Nat) (s : List Char) : GoesOn n (numberLengthFrom n s) s := by
  fun_induction numberLengthFrom n s with
  | case1 n => exact goesOn_self n []
  | case2 n c s hexponent ih =>
    rw [Bool.and_eq_true, isExponentMark_iff] at hexponent
    obtain ⟨d, s, rfl⟩ :=
      List.exists_cons_of_length_pos (Text.length_pos_of_startsIn hexponent.2)
    exact (Continuation.exponent hexponent.1 (isSign_iff.1 hexponent.2)).goesOn ih
  | case3 n c s _ hpart ih =>
    rw [Bool.or_eq_true, isWordChar_iff, beq_iff_eq] at hpart
    rcases hpart with hc | rfl
    · exact (Continuation.word hc).goesOn ih
    · exact Continuation.point.goesOn ih
  | case4 n c s _ _ hseparator ih =>
    rw [Bool.and_eq_true, beq_iff_eq] at hseparator
    obtain ⟨rfl, hword⟩ := hseparator
    obtain ⟨d, s, rfl⟩ := List.exists_cons_of_length_pos (Text.length_pos_of_startsIn hword)
    exact (Continuation.separated (isWordChar_iff.1 hword)).goesOn ih
  | case5 n c s _ _ _ => exact goesOn_self n (c :: s)

/-- A number in front of the text goes on to the end that the loop finds behind it. -/
theorem PpNumber.take_numberLengthFrom (h : PpNumber u) (s : List Char) :
    PpNumber ((u ++ s).take (numberLengthFrom u.length s)) := by
  obtain ⟨t, r, rfl, hlength, ht⟩ := goesOn_numberLengthFrom u.length s
  rw [hlength, ← List.append_assoc, ← List.length_append, List.take_left]
  exact ht u h

theorem ppNumber_take (h : numberLength s ≠ 0) : PpNumber (s.take (numberLength s)) := by
  cases s with
  | nil => exact absurd rfl h
  | cons c s =>
    rw [numberLength] at h ⊢
    split_ifs at h ⊢ with hfirst
    · rw [Bool.or_eq_true, Bool.and_eq_true, beq_iff_eq] at hfirst
      rcases hfirst with hc | ⟨rfl, hdigit⟩
      · exact (PpNumber.digit hc).take_numberLengthFrom s
      · obtain ⟨d, s, rfl⟩ := List.exists_cons_of_length_pos (Text.length_pos_of_startsIn hdigit)
        rw [numberLengthFrom_digit hdigit]
        exact (PpNumber.point hdigit).take_numberLengthFrom s
    · exact absurd rfl h

/-- A number is as long as the longest front of the text that the grammar derives, and nothing is
measured exactly where it derives none. -/
theorem numberLength_eq_iff_derived (s : List Char) (n : Nat) :
    numberLength s = n ↔ IsLongest PpNumber s n :=
  (Text.isLongest_of_complete numberLength_le (fun h ↦ h.ne_nil rfl) (fun _ ↦ ppNumber_take)
    (fun _ r h ↦ h.length_le r) s).eq_iff

-- A letter that is set off by a quote takes no sign with it.
example : numberLength "1'e+5".toList = 3 := by cbv

end Highlight.CFamily
