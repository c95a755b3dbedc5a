import Mathlib.Tactic.Ring
import Highlight.Proofs.Lengths
import Highlight.Proofs.Text.Steady

/-!
# Raw strings

A raw string is an opening, a delimiter, a bracket, and everything up to the first place where the
closing bracket, the delimiter and a quote stand together. None of this depends on the text behind
it, and no opening begins another one.

The language says less of the body: it may have anything in it, so that one text can have several
raw strings as fronts. All of them have the same delimiter, and the one that is measured begins
every other.
-/

namespace Highlight.CFamily

variable {i r : List Char}

/-- The characters that close a raw string with the given delimiter. -/
def rawClosing (delimiter : List Char) : List Char := [')'] ++ delimiter ++ ['"']

/-- A raw string ends where its closing characters stand for the first time. -/
inductive IsRawString : List Char → Prop
  | mk {opening : String} {delimiter body : List Char} : opening ∈ rawOpenings →
      (∀ c ∈ delimiter, isDelimiterChar c) → Text.byteLength delimiter ≤ delimiterLimit →
        ¬ rawClosing delimiter <:+: body ++ (rawClosing delimiter).dropLast →
          IsRawString (opening.toList ++ (delimiter ++ '(' :: (body ++ rawClosing delimiter)))

theorem eq_of_prefix_openings : ∀ opening ∈ rawOpenings, ∀ other ∈ rawOpenings,
    opening.toList <+: other.toList → opening = other := by
  decide

/-- No opening of a raw string begins another one. -/
theorem find?_rawOpenings {opening : String} (h : opening ∈ rawOpenings) (s : List Char) :
    rawOpenings.find? (Text.startsWith · (opening.toList ++ s)) = some opening := by
  have hstart : Text.startsWith opening (opening.toList ++ s) :=
    Text.startsWith_iff.2 (List.prefix_append _ _)
  obtain ⟨found, hfound⟩ : ∃ found,
      rawOpenings.find? (Text.startsWith · (opening.toList ++ s)) = some found := by
    rw [← Option.isSome_iff_exists, List.find?_isSome]
    exact ⟨opening, h, hstart⟩
  have hmem := List.mem_of_find?_eq_some hfound
  have hprefix := Text.startsWith_iff.1
    (List.find?_some (p := fun o ↦ Text.startsWith o (opening.toList ++ s)) hfound)
  rw [hfound]
  rcases List.prefix_or_prefix_of_prefix hprefix (List.prefix_append _ _) with hfront | hfront
  · rw [eq_of_prefix_openings found hmem opening h hfront]
  · rw [eq_of_prefix_openings opening h found hmem hfront]

/-- The closing characters are searched for as a literal is. -/
theorem find?_rawClosing (delimiter s : List Char) :
    Text.find? (rawClosing delimiter).isPrefixOf s =
      Text.findLiteral? (String.ofList (rawClosing delimiter)) s := by
  have hsame : Text.startsWith (String.ofList (rawClosing delimiter)) =
      (rawClosing delimiter).isPrefixOf := by
    funext t
    rw [Text.startsWith, String.toList_ofList]
  rw [Text.findLiteral?, hsame]

/-- What is measured behind an opening. -/
theorem rawStringLength_opening {opening : String} (h : opening ∈ rawOpenings) (t : List Char) :
    rawStringLength (opening.toList ++ t) =
      let delimiter := t.takeWhile isDelimiterChar
      let body := t.drop delimiter.length
      if delimiterLimit < Text.byteLength delimiter || !Text.startsWith "(" body then 0
      else
        match Text.findLiteral? (String.ofList (rawClosing delimiter)) (body.drop 1) with
        | some n =>
          opening.toList.length + delimiter.length + 1 + n + (rawClosing delimiter).length
        | none => 0 := by
  unfold rawStringLength
  rw [find?_rawOpenings h]
  simp only [← String.length_toList, List.drop_left]
  rw [← find?_rawClosing]
  rfl

theorem toList_rawClosing (delimiter : List Char) :
    (String.ofList (rawClosing delimiter)).toList = rawClosing delimiter := String.toList_ofList

theorem toList_rawClosing_ne_nil (delimiter : List Char) :
    (String.ofList (rawClosing delimiter)).toList ≠ [] := by
  rw [toList_rawClosing]
  exact List.cons_ne_nil _ _

/-- A raw string is measured whatever follows it. -/
theorem rawStringLength_append (h : IsRawString i) (r : List Char) :
    rawStringLength (i ++ r) = i.length := by
  obtain @⟨opening, delimiter, body, hopening, hdelimiter, hlimit, hclosing⟩ := h
  have hrun (t : List Char) :
      (delimiter ++ '(' :: t).takeWhile isDelimiterChar = delimiter := by
    rw [List.takeWhile_append_of_pos hdelimiter, List.takeWhile_cons_of_neg (by decide),
      List.append_nil]
  have hfind : Text.findLiteral? (String.ofList (rawClosing delimiter))
      (body ++ (rawClosing delimiter ++ r)) = some body.length := by
    have hfirst := hclosing
    rw [← toList_rawClosing] at hfirst
    have hfound :=
      (Text.findLiteral?_append_iff (toList_rawClosing_ne_nil delimiter) (r := r)).2 hfirst
    rw [toList_rawClosing] at hfound
    exact hfound
  have hwithin : ¬ delimiterLimit < Text.byteLength delimiter := Nat.not_lt.2 hlimit
  have hbracket (t : List Char) : Text.startsWith "(" ('(' :: t) :=
    Text.startsWith_iff.2 (List.prefix_append ['('] t)
  have hsplit : delimiter ++ '(' :: (body ++ rawClosing delimiter) ++ r =
      delimiter ++ '(' :: (body ++ (rawClosing delimiter ++ r)) := by
    rw [List.append_assoc, List.cons_append, List.append_assoc]
  rw [List.append_assoc, rawStringLength_opening hopening]
  simp only [hsplit, hrun, List.drop_left, hwithin, hbracket, List.drop_one, List.tail_cons, hfind,
    decide_false, Bool.not_true, Bool.or_self, Bool.false_eq_true, if_false, List.length_append,
    List.length_cons]
  ring

/-- What is measured as a raw string has the form of one. -/
theorem isRawString_of_length (hi : i ≠ []) (h : rawStringLength (i ++ r) = i.length) :
    IsRawString i := by
  have hpos := List.length_pos_iff.2 hi
  obtain ⟨opening, hfind⟩ : ∃ opening,
      rawOpenings.find? (Text.startsWith · (i ++ r)) = some opening := by
    by_contra hnone
    rw [not_exists, ← Option.eq_none_iff_forall_ne_some] at hnone
    unfold rawStringLength at h
    rw [hnone] at h
    simp only at h
    omega
  have hopening := List.mem_of_find?_eq_some hfind
  obtain ⟨t, ht⟩ := Text.startsWith_iff.1
    (List.find?_some (p := fun o ↦ Text.startsWith o (i ++ r)) hfind)
  rw [← ht, rawStringLength_opening hopening] at h
  simp only at h
  split_ifs at h with hwrong
  · omega
  · split at h
    · next n hn =>
      obtain ⟨body, rest, hbody, rfl, hclosing⟩ :=
        (Text.findLiteral?_eq_some_iff (toList_rawClosing_ne_nil _)).1 hn
      rw [toList_rawClosing] at hbody hclosing
      have hrun := Text.takeWhile_append_drop isDelimiterChar t
      have hdelimiter : ∀ c ∈ t.takeWhile isDelimiterChar, isDelimiterChar c :=
        Text.forall_mem_takeWhile
      generalize t.takeWhile isDelimiterChar = delimiter at *
      rw [Bool.or_eq_true, not_or, decide_eq_true_iff, Nat.not_lt, Bool.not_eq_true,
        Bool.not_eq_false'] at hwrong
      obtain ⟨behind, hbehind⟩ := Text.startsWith_iff.1 hwrong.2
      rw [← hbehind] at hbody hrun
      change behind = _ at hbody
      have hsplit : opening.toList ++ (delimiter ++ '(' :: (body ++ rawClosing delimiter)) ++ rest =
          i ++ r := by
        rw [← ht, ← hrun, hbody]
        simp only [List.append_assoc, List.cons_append]
        rfl
      have hlength : (opening.toList ++
          (delimiter ++ '(' :: (body ++ rawClosing delimiter))).length = i.length := by
        rw [← h]
        simp only [List.length_append, List.length_cons]
        ring
      rw [← (List.append_inj hsplit hlength).1]
      exact .mk hopening hdelimiter hwrong.1 hclosing
    · omega

theorem steady_rawStringLength : Text.Steady id rawStringLength :=
  Text.steady_of_form IsRawString rawStringLength_le fun _ r hi ↦
    ⟨isRawString_of_length hi, fun h ↦ rawStringLength_append h r⟩

/-- A control character, which Unicode has in the category Cc. -/
def IsControl (c : Char) : Prop := c.toNat < 0x20 ∨ 0x7F ≤ c.toNat ∧ c.toNat < 0xA0

/-- A raw string as the language has it, with any body. -/
inductive RawText (delimiter body : List Char) : List Char → Prop
  | mk {mark : String} : mark ∈ ["", "u8", "u", "U", "L"] →
      (∀ c ∈ delimiter, c ∉ ['(', ')', '\\', ' '] ∧ ¬ IsControl c) →
      Text.byteLength delimiter ≤ 16 →
        RawText delimiter body
          (mark.toList ++ "R\"".toList ++ (delimiter ++ '(' :: (body ++ rawClosing delimiter)))

theorem isControl_iff {c : Char} : isControl c ↔ IsControl c := by
  simp only [isControl, IsControl, Bool.or_eq_true, Bool.and_eq_true, decide_eq_true_eq,
    Char.lt_def, Char.le_def, UInt32.lt_iff_toNat_lt, UInt32.le_iff_toNat_le]
  change c.toNat < 0x20 ∨ 0x7F ≤ c.toNat ∧ c.toNat ≤ 0x9F ↔ _
  omega

theorem isDelimiterChar_iff {c : Char} :
    isDelimiterChar c ↔ c ∉ ['(', ')', '\\', ' '] ∧ ¬ IsControl c := by
  rw [← isControl_iff]
  simp [isDelimiterChar, and_assoc]

theorem exists_mark : ∀ opening ∈ rawOpenings,
    ∃ mark ∈ ["", "u8", "u", "U", "L"], opening.toList = mark.toList ++ "R\"".toList := by
  decide

theorem exists_opening : ∀ mark ∈ ["", "u8", "u", "U", "L"],
    ∃ opening ∈ rawOpenings, opening.toList = mark.toList ++ "R\"".toList := by
  decide

/-- What ends a raw string does not stand in the body of one that is measured. -/
theorem IsRawString.exists_rawText (h : IsRawString i) :
    ∃ delimiter body, RawText delimiter body i ∧ ¬ rawClosing delimiter <:+: body := by
  obtain @⟨opening, delimiter, body, hopening, hdelimiter, hlimit, hclosing⟩ := h
  obtain ⟨mark, hmark, hsplit⟩ := exists_mark opening hopening
  refine ⟨delimiter, body, ?_, fun hbody ↦ hclosing ?_⟩
  · rw [hsplit]
    exact .mk hmark (fun c hc ↦ isDelimiterChar_iff.1 (hdelimiter c hc)) hlimit
  · exact hbody.trans (List.prefix_append _ _).isInfix

/-- A raw string with any body begins with one whose body ends as early as it can. -/
theorem RawText.exists_isRawString {delimiter body : List Char} (h : RawText delimiter body i) :
    ∃ u, u <+: i ∧ IsRawString u := by
  obtain @⟨mark, hmark, hdelimiter, hlimit⟩ := h
  obtain ⟨opening, hopening, hsplit⟩ := exists_opening mark hmark
  obtain ⟨front, rest, hrest, hclosing⟩ :=
    Text.exists_first (toList_rawClosing_ne_nil delimiter) (s := body ++ rawClosing delimiter)
      (by rw [toList_rawClosing]; exact (List.suffix_append _ _).isInfix)
  rw [toList_rawClosing] at hrest hclosing
  refine ⟨opening.toList ++ (delimiter ++ '(' :: (front ++ rawClosing delimiter)), ?_,
    .mk hopening (fun c hc ↦ isDelimiterChar_iff.2 (hdelimiter c hc)) hlimit hclosing⟩
  refine ⟨rest, ?_⟩
  rw [hrest, hsplit]
  simp

theorem IsRawString.ne_nil (h : IsRawString i) : i ≠ [] := by
  cases h
  simp

/-- Where a raw string stands in front of the text, one is measured that begins it. -/
theorem RawText.front {delimiter body s : List Char} (h : RawText delimiter body i) (hi : i <+: s) :
    rawStringLength s ≠ 0 ∧ s.take (rawStringLength s) <+: i := by
  obtain ⟨u, hu, hraw⟩ := h.exists_isRawString
  obtain ⟨r, rfl⟩ := hu.trans hi
  rw [rawStringLength_append hraw, List.take_left]
  exact ⟨List.length_eq_zero_iff.not.2 hraw.ne_nil, hu⟩

theorem isRawString_take {s : List Char} (h : rawStringLength s ≠ 0) :
    IsRawString (s.take (rawStringLength s)) := by
  have hlength : (s.take (rawStringLength s)).length = rawStringLength s :=
    List.length_take_of_le (rawStringLength_le s)
  apply isRawString_of_length (r := s.drop (rawStringLength s))
  · rw [← List.length_pos_iff, hlength]
    exact Nat.pos_of_ne_zero h
  · rw [List.take_append_drop, hlength]

/-- A raw string is as long as the shortest front of the text that is one, in whose body its end
does not stand, and nothing is measured exactly where no front is one. -/
theorem rawStringLength_eq_iff_shortest (s : List Char) (n : Nat) :
    rawStringLength s = n ↔
      (∃ delimiter body, 0 < n ∧ n ≤ s.length ∧ RawText delimiter body (s.take n) ∧
        ¬ rawClosing delimiter <:+: body ∧ ∀ v d b, v <+: s → RawText d b v → s.take n <+: v) ∨
      (∀ v d b, v <+: s → ¬ RawText d b v) ∧ n = 0 := by
  constructor
  · rintro rfl
    by_cases hzero : rawStringLength s = 0
    · exact .inr ⟨fun v d b hv h ↦ (h.front hv).1 hzero, hzero⟩
    · obtain ⟨delimiter, body, hraw, hbody⟩ := (isRawString_take hzero).exists_rawText
      exact .inl ⟨delimiter, body, Nat.pos_of_ne_zero hzero, rawStringLength_le s, hraw, hbody,
        fun v d b hv h ↦ (h.front hv).2⟩
  · rintro (⟨delimiter, body, -, hn, hraw, -, hshortest⟩ | ⟨hnone, rfl⟩)
    · obtain ⟨hpos, hfront⟩ := hraw.front (List.take_prefix n s)
      obtain ⟨d, b, hfound, -⟩ := (isRawString_take hpos).exists_rawText
      have hback := hshortest _ d b (List.take_prefix _ s) hfound
      have hsame := Nat.le_antisymm hfront.length_le hback.length_le
      rwa [List.length_take_of_le (rawStringLength_le s), List.length_take_of_le hn] at hsame
    · by_contra hpos
      obtain ⟨d, b, hfound, -⟩ := (isRawString_take hpos).exists_rawText
      exact hnone _ d b (List.take_prefix _ s) hfound

-- The delimiter alone, a longer one and one without its quote end nothing.
example : rawStringLength "R\"d()\")dd\")d)d\";".toList = 15 := by decide

end Highlight.CFamily
