import Highlight.Proofs.JavaScript.Tag

/-!
# Code in curly brackets that text follows

Where the brackets of a text balance, what follows them is not looked at. A step may look ahead, but
only where it comes to the end of the text; then something stays open, unless the step closes the
last bracket.
-/

namespace Highlight.JavaScript

theorem quotedLengthFrom_append {quote : Char} {n : Nat} {s : List Char}
    (h : quotedLengthFrom quote n s ≠ 0) (t : List Char) :
    quotedLengthFrom quote n (s ++ t) = quotedLengthFrom quote n s := by
  fun_induction quotedLengthFrom quote n s with
  | case1 n => exact absurd rfl h
  | case2 n => exact absurd rfl h
  | case3 n d rest ih =>
    rw [List.cons_append, List.cons_append, quotedLengthFrom.eq_def]
    simpa using ih h
  | case4 n s hbackslash =>
    rw [List.cons_append, quotedLengthFrom.eq_def]
    simp [hbackslash]
  | case5 n c s hbackslash hquote ih =>
    rw [List.cons_append, quotedLengthFrom.eq_def]
    simpa [hbackslash, hquote] using ih h

theorem quotedLength_append {s : List Char} (h : quotedLength s ≠ 0) (t : List Char) :
    quotedLength (s ++ t) = quotedLength s := by
  cases s with
  | nil => exact absurd rfl h
  | cons quote s => exact quotedLengthFrom_append h t

/-- A line comment that ends within the text ends there whatever follows. -/
theorem lineCommentLength_append {s : List Char} (h : lineCommentLength s ≠ 0)
    (hlt : lineCommentLength s < s.length) (t : List Char) :
    lineCommentLength (s ++ t) = lineCommentLength s := by
  unfold lineCommentLength restOfLine at *
  cases hafter : Text.after? "//" s with
  | none => simp [hafter] at h
  | some rest =>
    have hopen := congrArg List.length (Text.after?_eq_some.1 hafter)
    rw [List.length_append, String.length_toList] at hopen
    simp only [hafter] at hlt
    have hend : Text.spanLength (!isLineTerminator ·) rest < rest.length := by omega
    simp only [Text.after?_append hafter, Text.spanLength_append hend]

theorem closedCommentLength_append {s : List Char} (h : closedCommentLength s ≠ 0)
    (t : List Char) : closedCommentLength (s ++ t) = closedCommentLength s := by
  unfold closedCommentLength at *
  simp only at *
  split_ifs at h with hclosed
  · rw [Comment.blockExtent_append hclosed]
  · exact absurd rfl h

theorem plainCodeLength_cons (c : Char) (s : List Char) :
    plainCodeLength (c :: s) =
      if Text.isQuote c then quotedLength (c :: s)
      else if Text.startsWith "//" (c :: s) then lineCommentLength (c :: s)
      else if Text.startsWith "/*" (c :: s) then closedCommentLength (c :: s)
      else 1 := rfl

/-- Code without brackets that ends before the text does goes no further where more follows. -/
theorem plainCodeLength_append {s : List Char} (h : plainCodeLength s ≠ 0)
    (hlt : plainCodeLength s < s.length) (t : List Char) :
    plainCodeLength (s ++ t) = plainCodeLength s := by
  have htwo : 2 ≤ s.length := by omega
  cases s with
  | nil => exact absurd rfl h
  | cons c s =>
    have hline := Text.startsWith_append "//" htwo t
    have hblock := Text.startsWith_append "/*" htwo t
    rw [plainCodeLength_cons] at h hlt ⊢
    rw [List.cons_append, plainCodeLength_cons, ← List.cons_append, hline, hblock]
    by_cases hquote : Text.isQuote c
    · simp only [hquote, if_true] at h ⊢
      exact quotedLength_append h t
    · by_cases hslashes : Text.startsWith "//" (c :: s)
      · simp only [hquote, hslashes, Bool.false_eq_true, if_true, if_false] at h hlt ⊢
        exact lineCommentLength_append h hlt t
      · by_cases hstar : Text.startsWith "/*" (c :: s)
        · simp only [hquote, hslashes, hstar, Bool.false_eq_true, if_true, if_false] at h ⊢
          exact closedCommentLength_append h t
        · simp only [hquote, hslashes, hstar, Bool.false_eq_true, if_false]

/-- A step is the same in front of more text, unless it comes to the end and leaves something
open. -/
theorem nestingStep_append {top : Nesting} {below : List Nesting} {s : List Char}
    (h : (nestingStep top below s).2 ≠ 0)
    (hmore : (nestingStep top below s).2 < s.length ∨ (nestingStep top below s).1 = [])
    (t : List Char) : nestingStep top below (s ++ t) = nestingStep top below s := by
  cases s with
  | nil => exact absurd rfl h
  | cons c rest =>
    cases top with
    | template =>
      cases rest with
      | nil =>
        by_cases hclose : c = '\x60'
        · simp [nestingStep, hclose]
        · by_cases hbackslash : c = '\\'
          · simp [nestingStep, hbackslash] at hmore
          · simp [nestingStep, hclose, hbackslash, Text.startsWith] at hmore
      | cons d rest =>
        have htwo : 2 ≤ (c :: d :: rest).length := Nat.le_add_left 2 _
        have hopening := Text.startsWith_append "$\x7b" htwo t
        simp only [List.cons_append] at hopening
        simp [nestingStep, hopening]
    | braces =>
      by_cases hclose : c = '\x7d'
      · simp [nestingStep, hclose]
      · by_cases hopen : c = '\x7b'
        · simp [nestingStep, hopen]
        · by_cases htemplate : c = '\x60'
          · simp [nestingStep, htemplate]
          · simp only [nestingStep, hclose, hopen, htemplate, if_false, reduceCtorEq, or_false,
              List.cons_append] at h hmore ⊢
            rw [← List.cons_append, plainCodeLength_append h hmore]

/-- Brackets that are closed stay so whatever follows. -/
theorem bracedLengthFrom_append {n : Nat} {opened : List Nesting} {s : List Char}
    (h : bracedLengthFrom n opened s ≠ 0) (t : List Char) :
    bracedLengthFrom n opened (s ++ t) = bracedLengthFrom n opened s := by
  induction hs : s.length using Nat.strongRecOn generalizing n opened s with
  | ind m ih =>
    cases opened with
    | nil => simp [bracedLengthFrom]
    | cons top below =>
      cases s with
      | nil => simp [bracedLengthFrom] at h
      | cons c rest =>
        rw [bracedLengthFrom] at h
        simp only at h
        have hstep := (ite_ne_left_iff.1 h).1
        rw [if_neg hstep] at h
        have hle := nestingStep_le top below (c :: rest)
        -- At the end of the text nothing is open any more, or the brackets would not balance.
        have hmore : (nestingStep top below (c :: rest)).2 < (c :: rest).length ∨
            (nestingStep top below (c :: rest)).1 = [] := by
          rcases Nat.lt_or_eq_of_le hle with hlt | heq
          · exact .inl hlt
          · rw [heq, List.drop_length] at h
            cases hopened : (nestingStep top below (c :: rest)).1 with
            | nil => exact .inr rfl
            | cons top below => simp [hopened, bracedLengthFrom] at h
        have hsame := nestingStep_append hstep hmore t
        have hdrop : ((c :: rest).drop (nestingStep top below (c :: rest)).2).length < m := by
          rw [List.length_drop, ← hs]
          have hpos : 0 < (c :: rest).length := Nat.succ_pos _
          omega
        have hind := ih _ hdrop h rfl
        rw [List.cons_append] at hsame ⊢
        rw [bracedLengthFrom, bracedLengthFrom, hsame]
        simp only [hstep, if_false]
        rw [← List.cons_append, List.drop_append_of_le_length hle, hind]

/-- Code whose brackets balance ends where it does whatever follows. -/
theorem bracedLength_append {s : List Char} (h : bracedLength s ≠ 0) (t : List Char) :
    bracedLength (s ++ t) = bracedLength s := by
  unfold bracedLength at h
  have hopening := (ite_ne_right_iff.1 h).1
  rw [if_pos hopening] at h
  have hle := Text.length_le_of_startsWith hopening
  rw [bracedLength, bracedLength, Text.startsWith_append _ hle, if_pos hopening, if_pos hopening,
    List.drop_append_of_le_length (show 1 ≤ s.length from hle), bracedLengthFrom_append h]

end Highlight.JavaScript
