import Highlight.JavaScript.Regex
import Highlight.Proofs.JavaScript.Braced
import Highlight.Proofs.Lengths

/-!
# What measures of scripts look at

Every length that is measured on a script is kept where the script is cut off behind it, and all
but the names of markup are steady. An operator is the exception to both: behind a question mark and
a point a digit is looked for, so a cut within what is looked at changes it, but a cut at its end
does not.
-/

namespace Highlight.JavaScript

variable {u r : List Char}

theorem steady_restOfLine (opening : String) : Text.Steady id (restOfLine opening) := by
  refine Text.steady_after opening (Text.spanLength (!isLineTerminator ·)) (opening.length + ·) 0
    ?_ ?_ (Text.greedy_spanLength _).steady
  · intro s
    unfold restOfLine
    cases Text.after? opening s <;> rfl
  · intro found
    exact .inr (by rw [id_eq, String.length_toList]; rfl)

theorem steady_closedCommentLength : Text.Steady id closedCommentLength := by
  apply Text.Kept.steady
  · intro u r hne hle
    have hclosed : (Comment.blockExtent (u ++ r)).terminated := by
      by_contra hopen
      exact hne (if_neg hopen)
    have hlength : closedCommentLength (u ++ r) = (Comment.blockExtent (u ++ r)).length :=
      if_pos hclosed
    rw [id_eq, hlength] at hle
    simp only [closedCommentLength, Comment.steady_blockExtent u r hle]
  · exact fun s t h ↦ closedCommentLength_append h t

theorem quotedLengthFrom_cons {quote c : Char} (hbackslash : c ≠ '\\') (n : Nat) (s : List Char) :
    quotedLengthFrom quote n (c :: s) =
      if c = quote then n + 1 else quotedLengthFrom quote (n + 1) s := by
  rw [quotedLengthFrom.eq_def]
  simp only [hbackslash, if_false]

theorem lt_quotedLengthFrom {quote : Char} {n : Nat} {s : List Char}
    (h : quotedLengthFrom quote n s ≠ 0) : n < quotedLengthFrom quote n s := by
  fun_induction quotedLengthFrom quote n s with
  | case1 | case2 => exact absurd rfl h
  | case3 n d rest ih =>
    have hlt := ih h
    omega
  | case4 n s hbackslash => exact Nat.lt_succ_self _
  | case5 n c s hbackslash hquote ih => exact Nat.lt_of_succ_lt (ih h)

theorem quotedLengthFrom_of_append {quote : Char} {n : Nat}
    (hne : quotedLengthFrom quote n (u ++ r) ≠ 0)
    (hle : quotedLengthFrom quote n (u ++ r) ≤ n + u.length) :
    quotedLengthFrom quote n u = quotedLengthFrom quote n (u ++ r) := by
  induction hu : u.length using Nat.strongRecOn generalizing n u with
  | ind m ih =>
    cases u with
    | nil => exact absurd hle (Nat.not_le.2 (lt_quotedLengthFrom hne))
    | cons c s =>
      rw [List.length_cons] at hu hle
      by_cases hbackslash : c = '\\'
      · subst hbackslash
        cases s with
        | nil =>
          cases r with
          | nil => rfl
          | cons d r =>
            have hlt : n + 2 < quotedLengthFrom quote (n + 2) r := lt_quotedLengthFrom hne
            change quotedLengthFrom quote (n + 2) r ≤ n + 1 at hle
            omega
        | cons d s =>
          rw [List.length_cons] at hu hle
          change quotedLengthFrom quote (n + 2) (s ++ r) ≠ 0 at hne
          change quotedLengthFrom quote (n + 2) (s ++ r) ≤ n + (s.length + 1 + 1) at hle
          change quotedLengthFrom quote (n + 2) s = quotedLengthFrom quote (n + 2) (s ++ r)
          exact ih s.length (by omega) hne (by omega) rfl
      · rw [List.cons_append, quotedLengthFrom_cons hbackslash] at hne hle ⊢
        rw [quotedLengthFrom_cons hbackslash]
        split_ifs at hne hle ⊢ with hquote
        · rfl
        · exact ih s.length (by omega) hne (by omega) rfl

theorem steady_quotedLength : Text.Steady id quotedLength := by
  apply Text.Kept.steady
  · intro u r hne hle
    cases u with
    | nil => exact absurd (Nat.le_zero.1 hle) hne
    | cons quote s =>
      rw [id_eq, List.length_cons, Nat.add_comm] at hle
      exact quotedLengthFrom_of_append hne hle
  · exact fun s t h ↦ quotedLength_append h t

/-- A single slash in front of the cut may begin a comment that is not closed. -/
theorem kept_plainCodeLength : Text.Kept id plainCodeLength := by
  intro u r hne hle
  cases u with
  | nil => exact absurd (Nat.le_zero.1 hle) hne
  | cons c s =>
    rw [List.cons_append, id_eq, plainCodeLength_cons, ← List.cons_append] at hne hle
    rw [List.cons_append, plainCodeLength_cons, plainCodeLength_cons, ← List.cons_append]
    by_cases hquote : Text.isQuote c
    · simp only [hquote, if_true] at hle ⊢
      exact steady_quotedLength _ r hle
    · simp only [hquote, Bool.false_eq_true, if_false] at hne hle ⊢
      by_cases htwo : 2 ≤ (c :: s).length
      · rw [Text.startsWith_append "//" htwo, Text.startsWith_append "/*" htwo] at hne hle ⊢
        split_ifs at hne hle ⊢ with hline hblock
        · exact steady_restOfLine "//" _ r hle
        · exact steady_closedCommentLength _ r hle
        · rfl
      · have hline : ¬ Text.startsWith "//" (c :: s) :=
          fun hline ↦ htwo (Text.length_le_of_startsWith hline)
        have hblock : ¬ Text.startsWith "/*" (c :: s) :=
          fun hblock ↦ htwo (Text.length_le_of_startsWith hblock)
        rw [if_neg hline, if_neg hblock]
        split_ifs at hne hle ⊢
        · exact absurd (hasRoom_lineCommentLength.frame_le hne) (by omega)
        · exact absurd (hasRoom_closedCommentLength.frame_le hne) (by omega)
        · rfl

/-- A step over code that stays within a text is the same where the text is cut off. -/
theorem nestingStep_of_append {top : Nesting} {below : List Nesting} (hu : u ≠ [])
    (hne : (nestingStep top below (u ++ r)).2 ≠ 0)
    (hle : (nestingStep top below (u ++ r)).2 ≤ u.length) :
    nestingStep top below u = nestingStep top below (u ++ r) := by
  obtain ⟨c, s, rfl⟩ := List.exists_cons_of_ne_nil hu
  cases top with
  | braces =>
    simp only [List.cons_append, nestingStep] at hne hle ⊢
    split_ifs at hne hle ⊢ with hclose hopen htemplate
    · rfl
    · rfl
    · rfl
    · exact congrArg (Prod.mk _) (kept_plainCodeLength (c :: s) r hne hle)
  | template =>
    cases s with
    | cons d s =>
      have htwo : 2 ≤ (c :: d :: s).length := Nat.le_add_left 2 _
      have hopening := Text.startsWith_append "$\x7b" htwo r
      simp only [List.cons_append] at hopening
      simp [nestingStep, hopening]
    | nil =>
      -- Two characters do not fit in front of the cut.
      have hone : Text.startsWith "$\x7b" [c] = false := by
        rw [Bool.eq_false_iff]
        exact fun h ↦ absurd (Text.length_le_of_startsWith h) (Nat.not_le.2 Nat.one_lt_two)
      simp only [List.cons_append, List.nil_append, nestingStep, hone, Bool.false_eq_true,
        if_false] at hle ⊢
      split_ifs at hle ⊢ with hclose hbackslash hopening
      · rfl
      · cases r with
        | nil => rfl
        | cons d r => exact absurd hle (by simp)
      · exact absurd hle (by simp)
      · rfl

/-- Brackets that are closed within a text are closed there as well where it is cut off. -/
theorem bracedLengthFrom_of_append {n : Nat} {opened : List Nesting}
    (hne : bracedLengthFrom n opened (u ++ r) ≠ 0)
    (hle : bracedLengthFrom n opened (u ++ r) ≤ n + u.length) :
    bracedLengthFrom n opened u = bracedLengthFrom n opened (u ++ r) := by
  induction hu : u.length using Nat.strongRecOn generalizing n opened u with
  | ind m ih =>
    cases opened with
    | nil => rw [bracedLengthFrom, bracedLengthFrom]
    | cons top below =>
      have hbounds := ((bracedLengthFrom_bounds n (top :: below) (u ++ r)).resolve_left hne).1
      rw [List.length_cons, Nat.min_eq_left (Nat.le_add_left 1 _)] at hbounds
      have hunil : u ≠ [] := by
        rintro rfl
        exact absurd hle (Nat.not_le.2 hbounds)
      obtain ⟨c, s, rfl⟩ := List.exists_cons_of_ne_nil hunil
      rw [List.cons_append, bracedLengthFrom] at hne hle ⊢
      rw [bracedLengthFrom]
      rw [← List.cons_append] at hne hle ⊢
      simp only at hne hle ⊢
      have hstep := (ite_ne_left_iff.1 hne).1
      rw [if_neg hstep] at hne hle ⊢
      have hafter := (bracedLengthFrom_bounds _ _ _).resolve_left hne
      have hsame := nestingStep_of_append hunil hstep (by omega)
      rw [hsame, if_neg hstep]
      rw [← hsame] at hne hle hafter hstep ⊢
      have hfits := nestingStep_le top below (c :: s)
      rw [Text.drop_append hfits] at hne hle ⊢
      refine ih _ ?_ hne ?_ rfl
      · rw [List.length_drop]
        omega
      · rw [List.length_drop]
        omega

theorem steady_bracedLength : Text.Steady id bracedLength := by
  apply Text.Kept.steady
  · intro u r hne hle
    have hopening : Text.startsWith "\x7b" (u ++ r) := by
      by_contra hopening
      exact hne (if_neg hopening)
    have hone : 1 ≤ u.length := (hasRoom_bracedLength.frame_le hne).trans hle |>.trans' (by decide)
    have hfront := hopening
    rw [Text.startsWith_append "\x7b" hone] at hfront
    simp only [id_eq, bracedLength, hopening, hfront, if_true] at hne hle ⊢
    rw [Text.drop_append hone] at hne hle ⊢
    apply bracedLengthFrom_of_append hne
    rw [List.length_drop]
    omega
  · exact fun s t h ↦ bracedLength_append h t

section

variable [Text.IdentifierClasses]

theorem regexLengthFrom_eq_zero_or (inClass : Bool) (n : Nat) (s : List Char) :
    regexLengthFrom inClass n s = 0 ∨ n < regexLengthFrom inClass n s := by
  fun_induction regexLengthFrom inClass n s <;> omega

theorem regexLengthFrom_cons {c : Char} (hbackslash : c ≠ '\\') (inClass : Bool) (n : Nat)
    (s : List Char) : regexLengthFrom inClass n (c :: s) =
      if isLineTerminator c then 0
      else if c = '[' then regexLengthFrom true (n + 1) s
      else if c = ']' then regexLengthFrom false (n + 1) s
      else if c = '/' ∧ !inClass then n + 1 + Text.spanLength isIdentifierPart s
      else regexLengthFrom inClass (n + 1) s := by
  rw [regexLengthFrom.eq_def]
  simp only [hbackslash, if_false]

/-- A regular expression that ends within a text ends there as well where the text is cut off. -/
theorem regexLengthFrom_of_append {inClass : Bool} {n : Nat}
    (hle : regexLengthFrom inClass n (u ++ r) ≤ n + u.length) :
    regexLengthFrom inClass n u = regexLengthFrom inClass n (u ++ r) := by
  induction hu : u.length using Nat.strongRecOn generalizing inClass n u with
  | ind m ih =>
    cases u with
    | nil =>
      have hzero := (regexLengthFrom_eq_zero_or inClass n r).resolve_right (Nat.not_lt.2 hle)
      exact hzero.symm
    | cons c s =>
      rw [List.length_cons] at hu hle
      have hnext {inClass : Bool} (h : regexLengthFrom inClass (n + 1) (s ++ r) ≤ n + (s.length + 1)) :
          regexLengthFrom inClass (n + 1) s = regexLengthFrom inClass (n + 1) (s ++ r) :=
        ih s.length (by omega) (by omega) rfl
      by_cases hbackslash : c = '\\'
      · subst hbackslash
        cases s with
        | cons d s =>
          simp only [List.cons_append, regexLengthFrom] at hle ⊢
          split_ifs at hle ⊢
          · rfl
          · rfl
          · rw [List.length_cons] at hu hle
            exact ih s.length (by omega) (by omega) rfl
        | nil =>
          cases r with
          | nil => rfl
          | cons d r =>
            simp only [List.cons_append, List.nil_append, regexLengthFrom] at hle ⊢
            split_ifs at hle ⊢
            · rfl
            · rfl
            · have hafter := regexLengthFrom_eq_zero_or inClass (n + 2) r
              rw [List.length_nil] at hle
              omega
      · rw [List.cons_append, regexLengthFrom_cons hbackslash] at hle
        rw [List.cons_append, regexLengthFrom_cons hbackslash, regexLengthFrom_cons hbackslash]
        split_ifs at hle ⊢ with hend hopen hclose hslash
        · rfl
        · exact hnext hle
        · exact hnext hle
        · have hflags := (Text.greedy_spanLength isIdentifierPart).steady s r (by
            rw [id_eq]
            omega)
          rw [hflags]
        · exact hnext hle

theorem steady_regexLength : Text.Steady id regexLength := by
  intro u r hle
  cases u with
  | nil => exact (Nat.le_zero.1 hle).symm
  | cons c s =>
    rw [List.cons_append, id_eq, List.length_cons, Nat.add_comm, regexLength] at hle
    rw [List.cons_append, regexLength, regexLength]
    by_cases hopens : c = '/' ∧ !Text.startsIn (fun c ↦ c == '/' || c == '*') (s ++ r)
    · rw [if_pos hopens] at hle ⊢
      have hrest := regexLengthFrom_of_append hle
      cases s with
      | nil => rw [← hrest, if_pos ⟨hopens.1, rfl⟩]
      | cons d s => exact (if_pos hopens).trans hrest
    · rw [if_neg hopens]
      cases s with
      | nil => exact ite_self 0
      | cons d s => exact if_neg hopens

end

theorem greedy_digitsLength (isDigit : Char → Bool) : Text.Greedy (digitsLength isDigit) :=
  Text.greedy_wordLength _ _

theorem radix?_append (h : 2 ≤ u.length) (r : List Char) : radix? (u ++ r) = radix? u := by
  obtain ⟨c, d, s, rfl⟩ : ∃ c d s, u = c :: d :: s := by
    match u with
    | c :: d :: s => exact ⟨c, d, s, rfl⟩
  by_cases hc : c = '0' <;> simp [radix?, hc]

theorem radix?_of_length_lt (h : u.length < 2) : radix? u = none := by
  match u with
  | [] | [_] => simp [radix?]

theorem steady_one {here : List Char → Bool} (hhere : Text.Reaches 1 here) :
    Text.Steady id fun s ↦ if here s then 1 else 0 :=
  .ite hhere (fun _ _ ↦ Nat.le_refl 1) (Text.steady_const id 1) (Text.steady_const id 0)

/-- What is measured behind the mark of a radix. -/
def radixRest (isDigit : Char → Bool) (s : List Char) : NumericLiteral :=
  let integer := digitsLength isDigit s
  let suffix := if Text.startsWith "n" (s.drop integer) then 1 else 0
  { length := 2 + integer + suffix, radixMark := 2, integer, suffix, erroneous := integer = 0 }

theorem steady_radixRest (isDigit : Char → Bool) :
    Text.Steady (·.length - 2) (radixRest isDigit) := by
  refine (greedy_digitsLength isDigit).steady.followed
    (fun _ s ↦ if Text.startsWith "n" s then 1 else 0)
    (fun integer suffix ↦
      (⟨2 + integer + suffix, 2, integer, 0, 0, suffix, integer = 0⟩ : NumericLiteral)) ?_
    fun _ ↦ steady_one (Text.reaches_startsWith "n")
  intro integer suffix
  simp only [id_eq]
  omega

theorem radixLiteral_eq (isDigit : Char → Bool) (s : List Char) :
    radixLiteral isDigit s = radixRest isDigit (s.drop 2) := by
  rw [radixLiteral, radixRest, List.drop_drop]

/-- The length of the point and the digits of a fraction behind an integer part. -/
def fractionLength (integer : Nat) (rest : List Char) : Nat :=
  let digits := digitsLength Char.isDigit (rest.drop 1)
  if Text.startsWith "." rest ∧ (integer ≠ 0 ∨ digits ≠ 0) then 1 + digits else 0

theorem steady_fractionLength (integer : Nat) : Text.Steady id (fractionLength integer) := by
  refine Text.steady_behind (Text.reaches_startsWith ".") (digitsLength Char.isDigit)
    (fun digits ↦ if integer ≠ 0 ∨ digits ≠ 0 then 1 + digits else 0) 0 ?_ ?_
    (greedy_digitsLength _).steady
  · intro s
    unfold fractionLength
    by_cases hpoint : Text.startsWith "." s <;> simp [hpoint]
  · intro digits
    split_ifs with hthere
    · exact .inr rfl
    · exact .inl ⟨by_contra fun hdigits ↦ hthere (.inr hdigits), rfl⟩

/-- What is measured of an exponent behind its letter: the sign and the digits. -/
def exponentRest (s : List Char) : Nat × Nat :=
  let sign := if Text.startsIn (fun c ↦ c == '+' || c == '-') s then 1 else 0
  (sign, digitsLength Char.isDigit (s.drop sign))

theorem steady_exponentRest : Text.Steady (fun found ↦ found.1 + found.2) exponentRest :=
  (steady_one (Text.reaches_startsIn _)).followed _ Prod.mk (fun _ _ ↦ rfl)
    fun _ ↦ (greedy_digitsLength _).steady

/-- What is measured behind the digits of a decimal literal, of which `whole` says that they have no
fraction. -/
def decimalRest (whole : Bool) (rest : List Char) : NumericLiteral :=
  if Text.startsIn (fun c ↦ c == 'e' || c == 'E') rest then
    let found := exponentRest (rest.drop 1)
    let exponent := 1 + found.1 + found.2
    { length := exponent, exponent, erroneous := found.2 = 0 }
  else
    let suffix := if whole && Text.startsWith "n" rest then 1 else 0
    { length := suffix, suffix }

theorem steady_decimalRest (whole : Bool) :
    Text.Steady NumericLiteral.length (decimalRest whole) := by
  have hexponent : Text.Reaches 1 (Text.startsIn fun c ↦ c == 'e' || c == 'E') :=
    Text.reaches_startsIn _
  have hsuffix : Text.Reaches 1 fun s ↦ whole && Text.startsWith "n" s := by
    cases whole with
    | true => exact Text.reaches_startsWith "n"
    | false => exact ⟨fun _ h ↦ Bool.noConfusion h, fun _ _ _ ↦ rfl⟩
  refine .ite hexponent ?_ ?_ ?_
  · intro s _
    simp only
    omega
  · refine (Text.steady_const id 1).followed (fun _ ↦ exponentRest) (fun n (found : Nat × Nat) ↦ ({
      length := n + found.1 + found.2
      exponent := n + found.1 + found.2
      erroneous := found.2 = 0 } : NumericLiteral)) ?_ fun _ ↦ steady_exponentRest
    intro n found
    simp only [id_eq]
    omega
  · refine (steady_one hsuffix).map
      (fun suffix ↦ ({ length := suffix, suffix } : NumericLiteral)) fun suffix ↦ ?_
    simp only [id_eq]

/-- What is measured behind the integer part of a decimal literal: the fraction and what follows it,
if there are digits at all. -/
def behindInteger (integer : Nat) (rest : List Char) : Nat × NumericLiteral :=
  let fraction := fractionLength integer rest
  (fraction,
    if integer + fraction = 0 then {} else decimalRest (fraction = 0) (rest.drop fraction))

theorem steady_behindInteger (integer : Nat) :
    Text.Steady (fun found ↦ found.1 + found.2.length) (behindInteger integer) := by
  have hrest (fraction : Nat) : Text.Steady NumericLiteral.length fun rest ↦
      if integer + fraction = 0 then {} else decimalRest (fraction = 0) rest := by
    by_cases hnone : integer + fraction = 0
    · simp only [hnone, if_true]
      exact Text.steady_const _ _
    · simp only [hnone, if_false]
      exact steady_decimalRest _
  exact (steady_fractionLength integer).followed _ Prod.mk (fun _ _ ↦ rfl) hrest

theorem decimalLiteral_eq (s : List Char) :
    let integer := digitsLength Char.isDigit s
    let found := behindInteger integer (s.drop integer)
    decimalLiteral s = { found.2 with
      length := integer + (found.1 + found.2.length)
      integer := integer + found.2.integer
      fraction := found.1 + found.2.fraction } := by
  unfold decimalLiteral behindInteger decimalRest exponentRest fractionLength
  simp only [List.drop_drop]
  split_ifs
  all_goals simp_all [Nat.add_assoc]

theorem steady_decimalLiteral : Text.Steady NumericLiteral.length decimalLiteral := by
  rw [show decimalLiteral = _ from funext decimalLiteral_eq]
  refine (greedy_digitsLength Char.isDigit).steady.followed behindInteger
    (fun integer (found : Nat × NumericLiteral) ↦ { found.2 with
      length := integer + (found.1 + found.2.length)
      integer := integer + found.2.integer
      fraction := found.1 + found.2.fraction }) ?_ steady_behindInteger
  exact fun integer found ↦ rfl

/-- The radix decides which digits are measured, and they decide the rest. -/
theorem steady_numericLiteral : Text.Steady NumericLiteral.length numericLiteral := by
  intro u r hle
  unfold numericLiteral at hle ⊢
  cases hwhole : radix? (u ++ r) with
  | some isDigit =>
    simp only [hwhole, radixLiteral_eq] at hle ⊢
    have htwo : 2 ≤ u.length := by
      simp only [radixRest] at hle
      omega
    rw [radix?_append htwo] at hwhole
    simp only [hwhole, Text.drop_append htwo] at hle ⊢
    apply steady_radixRest
    rw [List.length_drop]
    exact Nat.sub_le_sub_right hle 2
  | none =>
    have hfront : radix? u = none := by
      by_cases htwo : 2 ≤ u.length
      · rw [← radix?_append htwo, hwhole]
      · exact radix?_of_length_lt (Nat.lt_of_not_le htwo)
    simp only [hwhole, hfront] at hle ⊢
    exact steady_decimalLiteral u r hle

/-! ## Escapes -/

theorem steady_fixedEscape (digits : Nat) : Text.Steady (·.length - 2) (fixedEscape digits) := by
  refine (Text.steady_takeWhile_take Char.isAlphanum digits).map (fun taken ↦
    (⟨2 + taken.length, taken.length ≠ digits || !taken.all Text.isHexDigit⟩ : Escape)) ?_
  exact fun taken ↦ Nat.add_sub_cancel_left 2 taken.length

/-- The characters between curly brackets, of which the opening one is already read. -/
def bracedDigits? (body : List Char) : Option (List Char) :=
  (Text.findClosing? (fun c ↦ c == '\x7d' || isLineTerminator c) '\x7d' body).map (body.take ·)

/-- Without its closing bracket a code is malformed at once. -/
theorem bracedEscape_eq (body : List Char) : bracedEscape body =
    (bracedDigits? body).elim ⟨3, true⟩ fun digits ↦
      ⟨3 + digits.length + 1, !isCodePoint digits⟩ := by
  unfold bracedEscape bracedDigits? Text.findClosing?
  cases hfind : Text.findIn? (fun c ↦ c == '\x7d' || isLineTerminator c) body with
  | none => rfl
  | some n =>
    have hlength : (body.take n).length = n := by
      rw [List.length_take]
      exact Nat.min_eq_left (Nat.le_of_lt (Text.lt_length_of_findIn? hfind))
    have hclosing := Text.startsWith_single (show "\x7d".toList = ['\x7d'] from rfl) (body.drop n)
    simp only [hclosing, Option.filter_some]
    split_ifs with hclosed
    · rw [Option.map_some, Option.elim_some, hlength]
    · rfl

theorem steady_bracedEscape :
    Text.Steady (·.length - 2) fun after ↦ bracedEscape (after.drop 1) := by
  simp only [bracedEscape_eq]
  refine (Text.steady_const id 1).followed (fun _ ↦ bracedDigits?) (fun n found ↦
    (found.elim ⟨2 + n, true⟩ fun digits ↦
      ⟨2 + n + digits.length + 1, !isCodePoint digits⟩ : Escape)) ?_
    fun _ ↦ Text.steady_beforeClosing _ _
  intro n found
  cases found with
  | none => exact Nat.add_sub_cancel_left 2 n
  | some digits =>
    simp only [Option.elim_some, id_eq]
    omega

/-- What an escape is behind its backslash. -/
def escapeRest (c : Char) (after : List Char) : Escape :=
  if c = 'x' then fixedEscape 2 after
  else if c = 'u' then
    if Text.startsWith "\x7b" after then bracedEscape (after.drop 1) else fixedEscape 4 after
  else if Text.isOctalDigit c then
    ⟨2 + Text.spanLength Text.isOctalDigit (after.take (if c ≤ '3' then 2 else 1)), false⟩
  else if c = '\r' then ⟨2 + if Text.startsWith "\n" after then 1 else 0, false⟩
  else ⟨2, false⟩

/-- What an escape is depends on its letter. -/
theorem escape_cons (c : Char) (after : List Char) :
    escape ('\\' :: c :: after) = escapeRest c after := by
  rw [escape, escapeRest]
  by_cases hoctal : Text.isOctalDigit c
  · have hspan (n : Nat) : 1 + Text.spanLength Text.isOctalDigit ((c :: after).take (n + 1)) =
        2 + Text.spanLength Text.isOctalDigit (after.take n) := by
      rw [List.take_succ_cons, Text.spanLength_cons, if_pos hoctal]
      omega
    by_cases hthree : c ≤ '3' <;> simp only [hoctal, hthree, if_true, if_false, hspan]
  · simp only [hoctal, Bool.false_eq_true, if_false]
    by_cases hreturn : c = '\r'
    · by_cases hnewline : Text.startsWith "\n" after <;>
        simp [hreturn, hnewline]
    · simp only [hreturn, false_and, if_false]

theorem steady_escapeRest (c : Char) : Text.Steady (·.length - 2) (escapeRest c) := by
  have hplain {length : List Char → Nat} (h : Text.Steady id length) :
      Text.Steady (·.length - 2) fun after ↦ (⟨2 + length after, false⟩ : Escape) :=
    h.map (fun n ↦ (⟨2 + n, false⟩ : Escape)) fun n ↦ Nat.add_sub_cancel_left 2 n
  unfold escapeRest
  split_ifs with hx hu hoctal hthree hreturn
  · exact steady_fixedEscape 2
  · refine .ite (Text.reaches_startsWith "\x7b") ?_ steady_bracedEscape (steady_fixedEscape 4)
    intro s _
    rw [bracedEscape_eq]
    cases bracedDigits? (s.drop 1) with
    | none => exact Nat.le_refl 1
    | some digits =>
      change 1 ≤ 3 + digits.length + 1 - 2
      omega
  · exact hplain ((Text.greedy_spanLength _).take 2).steady
  · exact hplain ((Text.greedy_spanLength _).take 1).steady
  · exact hplain (steady_one (Text.reaches_startsWith "\n"))
  · exact Text.steady_const _ _

theorem escape_of_ne {c : Char} (hc : c ≠ '\\') (s : List Char) : escape (c :: s) = {} := by
  unfold escape
  split
  · next heq => exact absurd (List.cons.inj heq).1 hc
  · next heq => exact absurd (List.cons.inj heq).1 hc
  · rfl

theorem two_le_escapeRest (c : Char) (after : List Char) : 2 ≤ (escapeRest c after).length := by
  unfold escapeRest
  split_ifs
  · exact Nat.le_add_right 2 _
  · rw [bracedEscape_eq]
    cases bracedDigits? (after.drop 1) with
    | none => exact Nat.le_succ 2
    | some digits =>
      change 2 ≤ 3 + digits.length + 1
      omega
  · exact Nat.le_add_right 2 _
  · exact Nat.le_add_right 2 _
  · exact Nat.le_add_right 2 _
  · exact Nat.le_add_right 2 _
  · exact Nat.le_add_right 2 _
  · exact Nat.le_refl 2

theorem steady_escape : Text.Steady Escape.length escape := by
  intro u r hle
  match u with
  | [] =>
    by_contra hne
    cases r with
    | nil => exact hne rfl
    | cons c s =>
      by_cases hc : c = '\\'
      · subst hc
        exact absurd hle (Nat.not_le.2 (escape_length_pos s))
      · exact hne (escape_of_ne hc s).symm
  | [c] =>
    by_cases hc : c = '\\'
    · subst hc
      cases r with
      | nil => rfl
      | cons d after =>
        change (escape ('\\' :: d :: after)).length ≤ 1 at hle
        rw [escape_cons] at hle
        exact absurd ((two_le_escapeRest d after).trans hle) (by decide)
    · rw [List.cons_append, escape_of_ne hc, escape_of_ne hc]
  | c :: d :: after =>
    rw [List.cons_append, List.cons_append] at hle ⊢
    by_cases hc : c = '\\'
    · subst hc
      rw [escape_cons, List.length_cons, List.length_cons] at hle
      rw [escape_cons, escape_cons]
      apply steady_escapeRest
      change (escapeRest d (after ++ r)).length - 2 ≤ after.length
      omega
    · rw [escape_of_ne hc, escape_of_ne hc]

/-! ## Operators -/

theorem operator?_toList : ∀ op ∈ operators, operator? op.toList = some op := by
  decide

theorem mem_of_operator? {s : List Char} {op : String} (h : operator? s = some op) :
    op ∈ operators := by
  obtain ⟨found, hfind, hop⟩ := Option.bind_eq_some_iff.1 h
  split_ifs at hop with hchain
  · obtain rfl := Option.some.inj hop
    decide
  · obtain rfl := Option.some.inj hop
    exact (Operator.prefix_of_find? hfind).1

theorem selfDelimiting_operatorLength : Text.SelfDelimiting id operatorLength where
  within := operatorLength_le
  boundary s := Text.isBoundary_take s _
  again s := by
    cases hop : operator? s with
    | none => simp [operatorLength, hop, show operator? [] = none from rfl]
    | some op =>
      have hlength : operatorLength s = op.toList.length := by
        rw [operatorLength, hop]
        exact String.length_toList.symm
      have htake : s.take op.toList.length = op.toList :=
        (List.prefix_iff_eq_take.1 (prefix_of_operator? hop).2).symm
      rw [id_eq, hlength, htake, operatorLength, operator?_toList op (mem_of_operator? hop)]
      exact String.length_toList.symm

end Highlight.JavaScript
