import Highlight.Proofs.Json.Reading
import Highlight.Proofs.Lengths

/-!
# What measures of JSON look at

The lengths of numbers and escapes are steady, and so is the end of a string. A literal name is
looked at to the character behind it, so it is the same on its own text, but not wherever the text
is cut off.
-/

namespace Highlight.Json

variable {u r : List Char}

theorem steady_integerLength : Text.Steady id integerLength := by
  intro u r hle
  cases u with
  | nil => exact (Nat.le_zero.1 hle).symm
  | cons c s =>
    simp only [List.cons_append, id_eq, integerLength, List.length_cons] at hle ⊢
    split_ifs at hle ⊢
    · rfl
    · have hdigits := (Text.greedy_spanLength Char.isDigit).steady s r (by rw [id_eq]; omega)
      rw [hdigits]
    · rfl

theorem steady_fractionLength : Text.Steady id fractionLength := by
  refine Text.steady_behind (Text.reaches_startsWith ".") (Text.spanLength Char.isDigit)
    (fun digits ↦ if digits = 0 then 0 else 1 + digits) 0 (fun _ ↦ rfl) ?_
    (Text.greedy_spanLength _).steady
  intro digits
  split_ifs with hnone
  · exact .inl ⟨hnone, rfl⟩
  · exact .inr rfl

/-- The length of the sign and the digits of an exponent, 0 without digits. -/
def exponentRest (s : List Char) : Nat :=
  if Text.startsIn (fun c ↦ c == '+' || c == '-') s then
    if Text.spanLength Char.isDigit (s.drop 1) = 0 then 0
    else 1 + Text.spanLength Char.isDigit (s.drop 1)
  else Text.spanLength Char.isDigit s

theorem steady_exponentRest : Text.Steady id exponentRest := by
  refine Text.steady_signed (Text.reaches_startsIn _) (Text.greedy_spanLength _).steady ?_
  intro s hsign
  cases s with
  | nil => rfl
  | cons c s =>
    rw [Text.startsIn_cons, Bool.or_eq_true, beq_iff_eq, beq_iff_eq] at hsign
    rw [Text.spanLength_cons]
    rcases hsign with rfl | rfl <;> rfl

theorem exponentLength_eq (s : List Char) : exponentLength s =
    if Text.startsIn (fun c ↦ c == 'e' || c == 'E') s then
      if exponentRest (s.drop 1) = 0 then 0 else 1 + exponentRest (s.drop 1)
    else 0 := by
  unfold exponentLength exponentRest
  simp only [List.drop_drop]
  by_cases hsign : Text.startsIn (fun c ↦ c == '+' || c == '-') (s.drop 1)
  · simp only [hsign, if_true]
    split_ifs <;> omega
  · simp only [hsign, Bool.false_eq_true, if_false]

theorem steady_exponentLength : Text.Steady id exponentLength := by
  refine Text.steady_behind (Text.reaches_startsIn _) exponentRest
    (fun n ↦ if n = 0 then 0 else 1 + n) 0 exponentLength_eq ?_ steady_exponentRest
  intro n
  split_ifs with hnone
  · exact .inl ⟨hnone, rfl⟩
  · exact .inr rfl

def unsignedLength (s : List Char) : Nat :=
  let integer := integerLength s
  if integer = 0 then 0
  else
    let rest := s.drop integer
    integer + (fractionLength rest + exponentLength (rest.drop (fractionLength rest)))

theorem steady_unsignedLength : Text.Steady id unsignedLength := by
  have hrest (n : Nat) : Text.Steady id fun rest ↦ if n = 0 then 0
      else fractionLength rest + exponentLength (rest.drop (fractionLength rest)) := by
    split_ifs
    · exact Text.steady_const id 0
    · exact steady_fractionLength.add steady_exponentLength
  have hsame (s : List Char) : unsignedLength s = integerLength s +
      if integerLength s = 0 then 0 else fractionLength (s.drop (integerLength s)) +
        exponentLength ((s.drop (integerLength s)).drop
          (fractionLength (s.drop (integerLength s)))) := by
    unfold unsignedLength
    simp only
    split_ifs with hnone
    · rw [hnone]
    · rfl
  rw [show unsignedLength = _ from funext hsame]
  exact steady_integerLength.followed _ (· + ·) (fun _ _ ↦ rfl) hrest

/-- A number is an unsigned one with or without a minus sign. -/
theorem numberLength_eq (s : List Char) : numberLength s =
    if Text.startsWith "-" s then
      if unsignedLength (s.drop 1) = 0 then 0 else 1 + unsignedLength (s.drop 1)
    else unsignedLength s := by
  unfold numberLength unsignedLength
  by_cases hsign : Text.startsWith "-" s
  · simp only [hsign, if_true, List.drop_drop]
    split_ifs
    · rfl
    · omega
    · omega
    · omega
  · simp only [hsign, Bool.false_eq_true, if_false, List.drop_zero, Nat.zero_add, List.drop_drop]
    split_ifs
    · rfl
    · omega

theorem steady_numberLength : Text.Steady id numberLength := by
  rw [show numberLength = _ from funext numberLength_eq]
  refine Text.steady_signed (Text.reaches_startsWith "-") steady_unsignedLength ?_
  intro s hsign
  obtain ⟨rest, rfl⟩ := Text.startsWith_iff.1 hsign
  rfl

theorem steady_escapeLength : Text.Steady id escapeLength := by
  refine Text.steady_of_form Grammar.Escape escapeLength_le fun i r hi ↦ ⟨?_, ?_⟩
  · intro h
    have hne : escapeLength (i ++ r) ≠ 0 := by
      rw [h]
      exact List.length_eq_zero_iff.not.2 hi
    obtain ⟨escape, t, hsplit, hescape, hlength⟩ := escape_of_escapeLength hne
    obtain ⟨rfl, -⟩ := List.append_inj hsplit (h.symm.trans hlength)
    exact hescape
  · exact fun h ↦ escapeLength_append h r

theorem le_stringExtentFrom (n : Nat) (s : List Char) : n ≤ (stringExtentFrom n s).length := by
  rw [length_stringExtentFrom]
  exact Nat.le_add_right n _

/-- Where no character is taken, the string ends in front of a line end or with the text. -/
theorem stringExtentFrom_of_length_le {n : Nat} {s : List Char}
    (h : (stringExtentFrom n s).length ≤ n) : stringExtentFrom n s = ⟨n, false⟩ := by
  match s with
  | [] => rfl
  | c :: s =>
    by_cases hquote : c = '"'
    · subst hquote
      rw [stringExtentFrom_quote] at h
      exact absurd h (Nat.not_succ_le_self n)
    by_cases hend : isLineEnd c
    · exact stringExtentFrom_lineEnd n s hend
    rw [Bool.not_eq_true] at hend
    by_cases hbackslash : c = '\\'
    · subst hbackslash
      match s with
      | [] =>
        rw [stringExtentFrom_backslash] at h
        exact absurd h (Nat.not_succ_le_self n)
      | d :: s =>
        by_cases hd : isLineEnd d
        · rw [stringExtentFrom_brokenEscape n s hd] at h
          exact absurd h (Nat.not_succ_le_self n)
        · rw [Bool.not_eq_true] at hd
          rw [stringExtentFrom_escape n s hd] at h
          have hle := le_stringExtentFrom (n + 2) s
          omega
    · rw [stringExtentFrom_plain n s hquote hend hbackslash] at h
      have hle := le_stringExtentFrom (n + 1) s
      omega

/-- A string that ends within a text ends there as well where the text is cut off. -/
theorem stringExtentFrom_of_append {n : Nat}
    (hle : (stringExtentFrom n (u ++ r)).length ≤ n + u.length) :
    stringExtentFrom n u = stringExtentFrom n (u ++ r) := by
  induction hu : u.length using Nat.strongRecOn generalizing n u with
  | ind m ih =>
    match u with
    | [] =>
      rw [List.nil_append] at hle ⊢
      exact (stringExtentFrom_of_length_le hle).symm
    | c :: s =>
      rw [List.length_cons] at hle hu
      by_cases hquote : c = '"'
      · subst hquote
        rw [List.cons_append, stringExtentFrom_quote, stringExtentFrom_quote]
      by_cases hend : isLineEnd c
      · rw [List.cons_append, stringExtentFrom_lineEnd _ _ hend, stringExtentFrom_lineEnd _ _ hend]
      by_cases hbackslash : c = '\\'
      · subst hbackslash
        match s, r with
        | [], [] => rfl
        | [], d :: r =>
          by_cases hd : isLineEnd d
          · rw [List.cons_append, List.nil_append, stringExtentFrom_brokenEscape _ _ hd,
              stringExtentFrom_backslash]
          · rw [Bool.not_eq_true] at hd
            rw [List.cons_append, List.nil_append, stringExtentFrom_escape _ _ hd] at hle
            have hlong := le_stringExtentFrom (n + 2) r
            rw [List.length_nil] at hle
            omega
        | d :: s, r =>
          by_cases hd : isLineEnd d
          · rw [List.cons_append, List.cons_append, stringExtentFrom_brokenEscape _ _ hd,
              stringExtentFrom_brokenEscape _ _ hd]
          · rw [Bool.not_eq_true] at hd
            rw [List.length_cons] at hle hu
            rw [List.cons_append, List.cons_append, stringExtentFrom_escape _ _ hd] at hle ⊢
            rw [stringExtentFrom_escape _ _ hd]
            exact ih s.length (by omega) (by omega) rfl
      · rw [Bool.not_eq_true] at hend
        rw [List.cons_append, stringExtentFrom_plain _ _ hquote hend hbackslash] at hle ⊢
        rw [stringExtentFrom_plain _ _ hquote hend hbackslash]
        exact ih s.length (by omega) (by omega) rfl

theorem steady_stringExtent : Text.Steady Text.Extent.length stringExtent := by
  intro u r hle
  cases u with
  | nil =>
    cases r with
    | nil => rfl
    | cons c r =>
      by_cases hc : c = '"'
      · simp only [List.nil_append, stringExtent, hc, if_true] at hle
        exact absurd ((le_stringExtentFrom 1 r).trans hle) (by decide)
      · simp only [List.nil_append, stringExtent, hc, if_false]
  | cons c s =>
    simp only [List.cons_append, stringExtent, List.length_cons] at hle ⊢
    split_ifs at hle ⊢
    · apply stringExtentFrom_of_append
      rw [Nat.add_comm]
      exact hle
    · rfl

variable [Text.IdentifierClasses]

theorem literalName?_name : ∀ entry ∈ literalNames,
    literalName? entry.1.toList = some (entry.1.length, entry.2) := by
  simp only [literalNames, List.forall_mem_cons]
  exact ⟨rfl, rfl, rfl, List.forall_mem_nil _⟩

theorem selfDelimiting_literalName? :
    Text.SelfDelimiting (fun found ↦ (found.map Prod.fst).getD 0) literalName? where
  within := literalNameLength_le
  boundary s := Text.isBoundary_take s _
  again s := by
    cases hname : literalName? s with
    | none => simp [show literalName? [] = none from rfl]
    | some found =>
      obtain ⟨n, kind⟩ := found
      obtain ⟨entry, hentry, rfl, rfl, hfront⟩ := prefix_of_literalName? hname
      have htake : s.take entry.1.length = entry.1.toList := by
        rw [← String.length_toList]
        exact (List.prefix_iff_eq_take.1 hfront).symm
      rw [Option.map_some, Option.getD_some, htake]
      exact literalName?_name entry hentry

end Highlight.Json
