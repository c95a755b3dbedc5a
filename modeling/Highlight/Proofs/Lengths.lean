import Highlight.Proofs.CFamily.Reading
import Highlight.Proofs.Html.Reading
import Highlight.Proofs.JavaScript.Reading
import Highlight.Proofs.Json.Reading
import Highlight.Proofs.Xml.Length
import Highlight.Language

/-!
# Lengths that lie within the text

Before a scanner cuts a text it measures how much of it belongs together. No measured length goes
beyond the end of the text, and one from which the lengths of delimiters are taken away is never
less than these.
-/

namespace Highlight

namespace Html

theorem hasRoom_closedComment :
    Text.HasRoom 7 fun s ↦
      let extent := commentExtent s
      if extent.terminated && !extent.abrupt then extent.length else 0 := by
  intro s
  have hle := hasRoom_commentExtent.le_length s
  simp only
  split_ifs with hclosed
  · refine .inr ⟨?_, hle⟩
    unfold commentExtent at hclosed ⊢
    split
    · next hafter => simp [hafter] at hclosed
    · next body hafter =>
      simp only [hafter] at hclosed
      split_ifs at hclosed ⊢
      · simp at hclosed
      · simp at hclosed
      · split at hclosed
        · simp_all
        · simp at hclosed
  · exact .inl rfl

theorem referenceLength_le (s : List Char) : referenceLength s ≤ s.length :=
  Reference.length_le (by decide) (Text.spanLength_le _) s

theorem rawTextLength_le (name s : List Char) : rawTextLength name s ≤ s.length := by
  unfold rawTextLength
  cases hfind : Text.find? (closesElement name) s with
  | none => exact Nat.le_refl _
  | some n => exact Text.le_length_of_find? hfind

theorem plainLength_le (s : List Char) : plainLength s ≤ s.length := by
  cases s with
  | nil => exact Nat.le_refl 0
  | cons c s =>
    calc
      _ = 1 + Text.spanLength (· != '&') s := rfl
      _ ≤ 1 + s.length := Nat.add_le_add_left (Text.spanLength_le _ s) 1
      _ = (c :: s).length := Nat.add_comm _ _

theorem textLength_le (s : List Char) : textLength s ≤ s.length := by
  cases s with
  | nil => exact Nat.le_refl 0
  | cons c s =>
    have hle := Text.spanLength_le (fun c ↦ c != '<' && c != '&') (c :: s)
    exact Nat.max_le.2 ⟨Nat.succ_pos _, hle⟩

/-- The lengths that HTML is cut by, each with what is taken away from it. -/
def lengths : List (Nat × (List Char → Nat)) := [
  (4, fun s ↦ (commentExtent s).length),
  (7, fun s ↦
    let extent := commentExtent s
    if extent.terminated && !extent.abrupt then extent.length else 0),
  (10, doctypeLength), (12, Xml.cdataLength), (0, spaceLength), (0, tagNameLength),
  (0, attributeNameLength), (0, unquotedLength), (0, Text.quotedLength), (0, referenceLength),
  (0, plainLength), (0, textLength)]

theorem hasRoom_lengths : ∀ entry ∈ lengths, Text.HasRoom entry.1 entry.2 := by
  simp only [lengths, List.forall_mem_cons]
  exact ⟨hasRoom_commentExtent, hasRoom_closedComment, hasRoom_doctypeLength,
    Xml.hasRoom_cdataLength, Text.hasRoom_zero (Text.spanLength_le _),
    Text.hasRoom_zero Text.wordLength_le, Text.hasRoom_zero (Text.spanLength_le _),
    Text.hasRoom_zero (Text.spanLength_le _), Text.hasRoom_zero Text.quotedLength_le,
    Text.hasRoom_zero referenceLength_le, Text.hasRoom_zero plainLength_le,
    Text.hasRoom_zero textLength_le, List.forall_mem_nil _⟩

end Html

namespace CFamily

theorem numberLengthFrom_le (n : Nat) (s : List Char) : numberLengthFrom n s ≤ n + s.length := by
  fun_induction numberLengthFrom n s with
  | case1 n => simp
  | case2 n c s hexponent ih =>
    cases s with
    | nil => simp at hexponent
    | cons d s =>
      calc
        _ ≤ n + 2 + s.length := ih
        _ = n + (c :: d :: s).length := by
          rw [List.length_cons, List.length_cons]
          omega
  | case3 n c s _ _ ih => simp only [List.length_cons]; omega
  | case4 n c s _ _ hseparator ih =>
    cases s with
    | nil => simp at hseparator
    | cons d s =>
      calc
        _ ≤ n + 2 + s.length := ih
        _ = n + (c :: d :: s).length := by
          rw [List.length_cons, List.length_cons]
          omega
  | case5 n c s _ _ _ => simp

theorem numberLength_le (s : List Char) : numberLength s ≤ s.length := by
  cases s with
  | nil => exact Nat.le_refl 0
  | cons c s =>
    have hle : numberLengthFrom 1 s ≤ (c :: s).length :=
      calc
        _ ≤ 1 + s.length := numberLengthFrom_le 1 s
        _ = (c :: s).length := Nat.add_comm _ _
    rw [numberLength]
    split_ifs
    · exact hle
    · exact Nat.zero_le _

theorem bracedCodeLength_le {s : List Char} (hs : s ≠ []) : bracedCodeLength s ≤ s.length := by
  have hpos := List.length_pos_iff.2 hs
  unfold bracedCodeLength
  split
  · next n hfind =>
    have hlt := Text.lt_length_of_findIn? hfind
    rw [List.length_drop] at hlt
    split_ifs <;> omega
  · exact hpos

theorem escapeLength_le (s : List Char) : escapeLength s ≤ s.length := by
  unfold escapeLength
  split
  · next _ c after =>
    have hdigits (p : Char → Bool) (n : Nat) :
        2 + Text.spanLength p (after.take n) ≤ ('\\' :: c :: after).length := by
      have hle := Text.spanLength_le p (after.take n)
      rw [List.length_take] at hle
      simp only [List.length_cons]
      omega
    split_ifs with hoctal hbraced
    · have hle := Text.spanLength_le Text.isOctalDigit ((c :: after).take 3)
      rw [List.length_take] at hle
      rw [List.length_cons]
      omega
    · have hbrace := Text.length_le_of_startsWith (Bool.and_eq_true .. ▸ hbraced).2
      have hne : after ≠ [] := by
        rintro rfl
        simp at hbrace
      have hle := bracedCodeLength_le hne
      simp only [List.length_cons]
      omega
    · have hle := Text.spanLength_le Text.isHexDigit after
      simp only [List.length_cons]
      omega
    · exact hdigits _ _
    · exact hdigits _ _
    · next hnewline =>
      have hle := Text.length_le_of_startsWith hnewline.2
      simp only [List.length_cons]
      change 1 ≤ after.length at hle
      omega
    · simp only [List.length_cons]
      omega
  · simp
  · exact Nat.zero_le _

theorem encodingMarkLength_le (s : List Char) : encodingMarkLength s ≤ s.length := by
  unfold encodingMarkLength
  split
  · next mark hfind =>
    have hmark := List.find?_some hfind
    rw [Bool.and_eq_true] at hmark
    rw [← String.length_toList]
    exact Text.length_le_of_startsWith hmark.1
  · exact Nat.zero_le _

theorem headerLength_le (s : List Char) : headerLength s ≤ s.length := by
  unfold headerLength
  split_ifs
  · split
    · next n hfind =>
      have hlt := Text.lt_length_of_findIn? hfind
      split_ifs <;> omega
    · exact Nat.zero_le _
  · exact Nat.zero_le _

theorem rawStringLength_le (s : List Char) : rawStringLength s ≤ s.length := by
  unfold rawStringLength
  split
  · exact Nat.zero_le _
  · next opening hfind =>
    have hopening := Text.length_le_of_startsWith
      (List.find?_some (p := fun o ↦ Text.startsWith o s) hfind)
    rw [String.length_toList] at hopening
    simp only
    generalize hdelimiter : (s.drop opening.length).takeWhile isDelimiterChar = delimiter
    have hprefix : delimiter <+: s.drop opening.length :=
      hdelimiter ▸ List.takeWhile_prefix _
    have hle := hprefix.length_le
    rw [List.length_drop] at hle
    generalize hbody : (s.drop opening.length).drop delimiter.length = body
    have hbodyLength := congrArg List.length hbody
    rw [List.length_drop, List.length_drop] at hbodyLength
    split_ifs with hwrong
    · exact Nat.zero_le _
    · split
      · next n hn =>
        obtain ⟨hnle, hclosing, -⟩ := Text.find?_eq_some_iff.1 hn
        have hclosingLe := (List.isPrefixOf_iff_prefix.1 hclosing).length_le
        rw [Bool.or_eq_true, not_or] at hwrong
        have hbracket := Text.length_le_of_startsWith (by simpa using hwrong.2)
        rw [List.length_drop] at hnle
        rw [List.length_drop, List.length_drop] at hclosingLe
        change 1 ≤ body.length at hbracket
        simp only [List.length_append, List.length_singleton] at hclosingLe ⊢
        omega
      · exact Nat.zero_le _

variable [Text.IdentifierClasses]

def lengths : List (Nat × (List Char → Nat)) := [
  (2, lineCommentLength), (2, fun s ↦ (Comment.blockExtent s).length),
  (4, fun s ↦ if (Comment.blockExtent s).terminated then (Comment.blockExtent s).length else 0),
  (0, spliceLength), (0, blankLength), (0, identifierLength), (0, numberLength),
  (0, escapeLength), (0, encodingMarkLength), (0, headerLength), (0, rawStringLength)]

theorem hasRoom_lengths : ∀ entry ∈ lengths, Text.HasRoom entry.1 entry.2 := by
  simp only [lengths, List.forall_mem_cons]
  exact ⟨hasRoom_lineCommentLength, Comment.hasRoom_blockExtent, Comment.hasRoom_closedBlock,
    Text.hasRoom_zero spliceLength_le, Text.hasRoom_zero (Text.spanLength_le _),
    Text.hasRoom_zero Text.wordLength_le, Text.hasRoom_zero numberLength_le,
    Text.hasRoom_zero escapeLength_le, Text.hasRoom_zero encodingMarkLength_le,
    Text.hasRoom_zero headerLength_le, Text.hasRoom_zero rawStringLength_le,
    List.forall_mem_nil _⟩

end CFamily

namespace JavaScript

theorem escape_length_le (s : List Char) : (escape s).length ≤ s.length := by
  unfold escape
  split
  · next _ c after =>
    have hfixed (n : Nat) : (fixedEscape n after).length ≤ ('\\' :: c :: after).length := by
      have hle := ( List.takeWhile_prefix Char.isAlphanum (l := after.take n)).length_le
      rw [List.length_take] at hle
      simp only [fixedEscape, List.length_cons]
      omega
    split_ifs with hx hu hbrace hoctal hthree hline
    · exact hfixed 2
    · have hle := Text.length_le_of_startsWith hbrace
      change 1 ≤ after.length at hle
      unfold bracedEscape
      split
      · next n hn =>
        have hlt := Text.lt_length_of_findIn? hn
        rw [List.length_drop] at hlt
        split_ifs <;> simp only [List.length_cons] <;> omega
      · simp only [List.length_cons]
        omega
    · exact hfixed 4
    · have hle := Text.spanLength_le Text.isOctalDigit ((c :: after).take 3)
      rw [List.length_take] at hle
      simp only [List.length_cons] at hle ⊢
      omega
    · have hle := Text.spanLength_le Text.isOctalDigit ((c :: after).take 2)
      rw [List.length_take] at hle
      simp only [List.length_cons] at hle ⊢
      omega
    · have hle := Text.length_le_of_startsWith hline.2
      change 1 ≤ after.length at hle
      simp only [List.length_cons]
      omega
    · simp only [List.length_cons]
      omega
  · simp
  · exact Nat.zero_le _

theorem regexLengthFrom_le [Text.IdentifierClasses] (inClass : Bool) (n : Nat) (s : List Char) :
    regexLengthFrom inClass n s ≤ n + s.length := by
  fun_induction regexLengthFrom inClass n s with
  | case1 | case2 | case3 | case4 => exact Nat.zero_le _
  | case5 inClass n d rest hd ih => simp only [List.length_cons]; omega
  | case6 inClass n s ih => simp only [List.length_cons]; omega
  | case7 inClass n s ih => simp only [List.length_cons]; omega
  | case8 inClass n c s _ _ _ _ _ =>
    have hle := Text.spanLength_le isIdentifierPart s
    simp only [List.length_cons]
    omega
  | case9 inClass n c s _ _ _ _ _ ih => simp only [List.length_cons]; omega

theorem regexLength_le [Text.IdentifierClasses] (s : List Char) : regexLength s ≤ s.length := by
  cases s with
  | nil => exact Nat.le_refl 0
  | cons c s =>
    have hle : regexLengthFrom false 1 s ≤ (c :: s).length :=
      calc
        _ ≤ 1 + s.length := regexLengthFrom_le false 1 s
        _ = (c :: s).length := Nat.add_comm _ _
    rw [regexLength]
    split_ifs
    · exact hle
    · exact Nat.zero_le _

theorem digitsLength_le (isDigit : Char → Bool) (s : List Char) :
    digitsLength isDigit s ≤ s.length :=
  Text.wordLength_le s

theorem radixLiteral_length_le {isDigit : Char → Bool} {s : List Char}
    (h : radix? s = some isDigit) : (radixLiteral isDigit s).length ≤ s.length := by
  have hmark : 2 ≤ s.length := by
    unfold radix? at h
    split at h
    · simp
    · simp at h
  have hdigits := Text.add_le_length hmark (digitsLength_le isDigit (s.drop 2))
  simp only [radixLiteral]
  split_ifs with hsuffix
  · exact Text.add_le_length hdigits (Text.length_le_of_startsWith hsuffix)
  · exact hdigits

theorem decimalLiteral_length_le (s : List Char) : (decimalLiteral s).length ≤ s.length := by
  have hinteger := digitsLength_le Char.isDigit s
  unfold decimalLiteral
  simp only
  generalize digitsLength Char.isDigit s = integer at hinteger ⊢
  have hfraction : (if Text.startsWith "." (s.drop integer) ∧ (integer ≠ 0 ∨
      digitsLength Char.isDigit ((s.drop integer).drop 1) ≠ 0) then
      1 + digitsLength Char.isDigit ((s.drop integer).drop 1) else 0) ≤
      (s.drop integer).length := by
    split_ifs with hpoint
    · exact Text.add_le_length (Text.length_le_of_startsWith hpoint.1) (digitsLength_le _ _)
    · exact Nat.zero_le _
  generalize (if Text.startsWith "." (s.drop integer) ∧ (integer ≠ 0 ∨
      digitsLength Char.isDigit ((s.drop integer).drop 1) ≠ 0) then
      1 + digitsLength Char.isDigit ((s.drop integer).drop 1) else 0) = fraction at hfraction ⊢
  have hboth := Text.add_le_length hinteger hfraction
  rw [List.drop_drop]
  generalize hrest : s.drop (integer + fraction) = rest
  have hlength : integer + fraction + rest.length = s.length := by
    rw [← hrest, List.length_drop]
    exact Nat.add_sub_cancel' hboth
  split_ifs with hnone hexponent hsign hsuffix
  · exact Nat.zero_le _
  · have hmark := Text.add_le_length (Text.length_pos_of_startsIn hexponent)
      (Text.length_pos_of_startsIn hsign)
    have hdigits := Text.add_le_length hmark (digitsLength_le Char.isDigit _)
    simp only
    omega
  · have hdigits := Text.add_le_length (Text.length_pos_of_startsIn hexponent)
      (digitsLength_le Char.isDigit _)
    simp only [Nat.add_zero]
    omega
  · have hle := Text.length_le_of_startsWith hsuffix.2
    change 1 ≤ rest.length at hle
    simp only
    omega
  · simp only
    omega

theorem numericLiteral_length_le (s : List Char) : (numericLiteral s).length ≤ s.length := by
  unfold numericLiteral
  split
  · next isDigit hradix => exact radixLiteral_length_le hradix
  · exact decimalLiteral_length_le s

variable [Text.IdentifierClasses]

theorem membersLengthFrom_le {n m : Nat} {s : List Char} (h : membersLengthFrom n s = some m) :
    m ≤ n + s.length := by
  induction hs : s.length using Nat.strongRecOn generalizing n s with
  | ind k ih =>
    cases s with
    | nil =>
      rw [membersLengthFrom] at h
      obtain rfl := Option.some.inj h
      exact Nat.le_add_right _ _
    | cons c rest =>
      rw [membersLengthFrom] at h
      have hname : identifierLength rest ≤ rest.length := Text.wordLength_le rest
      rw [List.length_cons] at hs
      split_ifs at h with hpoint
      · simp only at h
        split_ifs at h
        have hdrop : (rest.drop (identifierLength rest)).length =
            rest.length - identifierLength rest := List.length_drop
        have hind := ih _ (by omega) h rfl
        omega
      · obtain rfl := Option.some.inj h
        exact Nat.le_add_right _ _

theorem qualifiedLength_le {tail : List Char → Option Nat}
    (htail : ∀ s m, tail s = some m → m ≤ s.length) (s : List Char) :
    qualifiedLength tail s ≤ s.length := by
  have hname : markupIdentifierLength s ≤ s.length := Text.wordLength_le s
  unfold qualifiedLength
  simp only
  split_ifs with hnone hcolon hlocal
  · exact Nat.zero_le _
  · exact Nat.zero_le _
  · have hpoint := Text.length_le_of_startsWith hcolon
    change 1 ≤ _ at hpoint
    have hboth := Text.add_le_length hname hpoint
    rw [List.drop_drop]
    exact Text.add_le_length hboth (Text.wordLength_le _)
  · split
    · next m hm => exact Text.add_le_length hname (htail _ _ hm)
    · exact Nat.zero_le _

theorem tagNameLength_le (s : List Char) : tagNameLength s ≤ s.length := by
  apply qualifiedLength_le
  intro t m hm
  simpa using membersLengthFrom_le hm

theorem attributeNameLength_le (s : List Char) : attributeNameLength s ≤ s.length := by
  apply qualifiedLength_le
  intro t m hm
  obtain rfl := Option.some.inj hm
  exact Nat.zero_le _

theorem privateNameLength_le (s : List Char) : privateNameLength s ≤ s.length := by
  unfold privateNameLength
  simp only
  split_ifs with hmark hnone
  · exact Nat.zero_le _
  · exact Text.add_le_length (Text.length_le_of_startsWith hmark) (Text.wordLength_le _)
  · exact Nat.zero_le _

omit [Text.IdentifierClasses] in
theorem operatorLength_le (s : List Char) : operatorLength s ≤ s.length := by
  unfold operatorLength
  split
  · next op hop =>
    rw [← String.length_toList]
    exact (prefix_of_operator? hop).2.length_le
  · exact Nat.zero_le _

def lengths : List (Nat × (List Char → Nat)) := [
  (2, lineCommentLength), (2, hashbangLength), (2, fun s ↦ (Comment.blockExtent s).length),
  (4, closedCommentLength), (2, bracedLength), (0, Text.spanLength isSpace),
  (0, fun s ↦ (escape s).length), (0, fun s ↦ (numericLiteral s).length), (0, regexLength),
  (0, identifierLength), (0, privateNameLength), (0, operatorLength), (0, Text.quotedLength),
  (0, tagNameLength), (0, attributeNameLength), (0, Html.referenceLength)]

theorem hasRoom_lengths : ∀ entry ∈ lengths, Text.HasRoom entry.1 entry.2 := by
  simp only [lengths, List.forall_mem_cons]
  exact ⟨hasRoom_lineCommentLength, hasRoom_hashbangLength, Comment.hasRoom_blockExtent,
    hasRoom_closedCommentLength, hasRoom_bracedLength, Text.hasRoom_zero (Text.spanLength_le _),
    Text.hasRoom_zero escape_length_le, Text.hasRoom_zero numericLiteral_length_le,
    Text.hasRoom_zero regexLength_le, Text.hasRoom_zero Text.wordLength_le,
    Text.hasRoom_zero privateNameLength_le, Text.hasRoom_zero operatorLength_le,
    Text.hasRoom_zero Text.quotedLength_le, Text.hasRoom_zero tagNameLength_le,
    Text.hasRoom_zero attributeNameLength_le, Text.hasRoom_zero Html.referenceLength_le,
    List.forall_mem_nil _⟩

end JavaScript

namespace Json

theorem integerLength_le (s : List Char) : integerLength s ≤ s.length := by
  cases s with
  | nil => exact Nat.le_refl 0
  | cons c s =>
    have hle : 1 + Text.spanLength Char.isDigit s ≤ (c :: s).length :=
      calc
        _ ≤ 1 + s.length := Nat.add_le_add_left (Text.spanLength_le _ s) 1
        _ = (c :: s).length := Nat.add_comm _ _
    rw [integerLength]
    split_ifs
    · exact Nat.succ_pos _
    · exact hle
    · exact Nat.zero_le _

theorem fractionLength_le (s : List Char) : fractionLength s ≤ s.length := by
  unfold fractionLength
  simp only
  split_ifs with hpoint hnone
  · exact Nat.zero_le _
  · exact Text.add_le_length (Text.length_le_of_startsWith hpoint) (Text.spanLength_le _ _)
  · exact Nat.zero_le _

theorem exponentLength_le (s : List Char) : exponentLength s ≤ s.length := by
  unfold exponentLength
  simp only
  split_ifs with hmark hsign hnone
  · exact Nat.zero_le _
  · have hboth := Text.add_le_length (Text.length_pos_of_startsIn hmark)
      (Text.length_pos_of_startsIn hsign)
    exact Text.add_le_length hboth (Text.spanLength_le _ _)
  · exact Nat.zero_le _
  · exact Text.add_le_length (Text.length_pos_of_startsIn hmark) (Text.spanLength_le _ _)
  · exact Nat.zero_le _

theorem numberLength_le (s : List Char) : numberLength s ≤ s.length := by
  unfold numberLength
  simp only
  have hsign : (if Text.startsWith "-" s then 1 else 0) ≤ s.length := by
    split_ifs with hminus
    · exact Text.length_le_of_startsWith hminus
    · exact Nat.zero_le _
  generalize (if Text.startsWith "-" s then 1 else 0) = sign at hsign ⊢
  have hinteger := Text.add_le_length hsign (integerLength_le (s.drop sign))
  generalize sign + integerLength (s.drop sign) = n at hinteger ⊢
  split_ifs
  · exact Nat.zero_le _
  · exact Text.add_le_length (Text.add_le_length hinteger (fractionLength_le _))
      (exponentLength_le _)

theorem escapeLength_le (s : List Char) : escapeLength s ≤ s.length := by
  by_cases hlength : escapeLength s = 0
  · rw [hlength]
    exact Nat.zero_le _
  · obtain ⟨escape, r, hs, -, heq⟩ := escape_of_escapeLength hlength
    rw [heq, hs, List.length_append]
    exact Nat.le_add_right _ _

theorem junkLength_le (s : List Char) : junkLength s ≤ s.length := by
  cases s with
  | nil => exact Nat.le_refl 0
  | cons c s => exact Nat.max_le.2 ⟨Nat.succ_pos _, Text.spanLength_le _ _⟩

variable [Text.IdentifierClasses]

theorem literalNameLength_le (s : List Char) :
    ((literalName? s).map Prod.fst).getD 0 ≤ s.length := by
  cases hname : literalName? s with
  | none => exact Nat.zero_le _
  | some found =>
    obtain ⟨n, kind⟩ := found
    obtain ⟨entry, -, rfl, -, hfront⟩ := prefix_of_literalName? hname
    rw [Option.map_some, Option.getD_some, ← String.length_toList]
    exact hfront.length_le

def lengths : List (Nat × (List Char → Nat)) := [
  (2, JavaScript.lineCommentLength), (2, fun s ↦ (Comment.blockExtent s).length),
  (4, JavaScript.closedCommentLength), (1, fun s ↦ (stringExtent s).length), (0, escapeLength),
  (0, Text.spanLength isSpace), (0, numberLength),
  (0, fun s ↦ ((literalName? s).map Prod.fst).getD 0), (0, junkLength)]

theorem hasRoom_lengths : ∀ entry ∈ lengths, Text.HasRoom entry.1 entry.2 := by
  simp only [lengths, List.forall_mem_cons]
  exact ⟨JavaScript.hasRoom_lineCommentLength, Comment.hasRoom_blockExtent,
    JavaScript.hasRoom_closedCommentLength, hasRoom_stringExtent,
    Text.hasRoom_zero escapeLength_le, Text.hasRoom_zero (Text.spanLength_le _),
    Text.hasRoom_zero numberLength_le, Text.hasRoom_zero literalNameLength_le,
    Text.hasRoom_zero junkLength_le, List.forall_mem_nil _⟩

end Json

variable [Text.IdentifierClasses]

namespace Language

/-- The lengths that sources are cut by, each with what is taken away from it. -/
def lengths : Language → List (Nat × (List Char → Nat))
  | xml => Xml.lengths
  | html => Html.lengths
  | c | cpp => CFamily.lengths
  | javaScript => JavaScript.lengths
  | json => Json.lengths

/-- A source can be cut by every length that is measured on it. -/
theorem hasRoom_lengths (language : Language) :
    ∀ entry ∈ language.lengths, Text.HasRoom entry.1 entry.2 := by
  cases language with
  | xml => exact Xml.hasRoom_lengths
  | html => exact Html.hasRoom_lengths
  | c | cpp => exact CFamily.hasRoom_lengths
  | javaScript => exact JavaScript.hasRoom_lengths
  | json => exact Json.hasRoom_lengths

end Language

/-! ## Insides -/

/-- Where the end of a construct is found first and its inside is read afterwards, the reading ends
exactly there. -/
structure InsidesCovered : Prop where
  doctype : ∀ s, Piece.Covers (run Html.doctypePart false s) s
  rawTextEnd : ∀ name s, Html.rawTextLength name s ≤ s.length
  rawText : ∀ content s, Piece.Covers (Html.rawText content s) s
  attributeValue : ∀ s ps, Html.valueParts s = some ps → Piece.Covers ps s
  script : ∀ strict levels s, Piece.Covers (JavaScript.scanLevels strict levels s) s
  string : ∀ kind s, (Json.stringExtent s).length ≠ 0 →
    Piece.Covers (Json.stringParts kind (Json.stringExtent s).length s)
      (s.take (Json.stringExtent s).length)

omit [Text.IdentifierClasses] in
theorem Html.covers_valueParts {s : List Char} {ps : List (Piece Kind)}
    (h : valueParts s = some ps) : Piece.Covers ps s := by
  have hclose (t : List Char) (n : Nat) (hturn : valueTurn t = .close n) : t = [] := by
    unfold valueTurn at hturn
    split_ifs at hturn with hempty
    · exact List.isEmpty_iff.1 hempty
    · split at hturn <;> simp at hturn
  refine ⟨(Construct.fits_parts fits_valueTurn).read s ps h, ?_⟩
  simpa using width_partsFrom fits_valueTurn hclose h

theorem insidesCovered : InsidesCovered where
  doctype := Html.covers_doctypeInside
  rawTextEnd := Html.rawTextLength_le
  rawText := Html.covers_rawText
  attributeValue _ _ := Html.covers_valueParts
  script := JavaScript.covers_scanLevels
  string := Json.covers_stringParts

end Highlight
