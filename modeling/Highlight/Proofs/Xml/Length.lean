import Highlight.Proofs.Reference
import Highlight.Proofs.Xml.Reading

/-!
# Lengths in XML

What XML is cut by lies within the text and leaves room for the delimiters that are taken away.
-/

namespace Highlight.Xml

theorem referenceLength_le (s : List Char) : referenceLength s ≤ s.length :=
  Reference.length_le (by decide) (Text.wordLength_le) s

theorem dataLength_le (s : List Char) : dataLength s ≤ s.length := by
  unfold dataLength
  cases hfind : Text.find? endsData s with
  | none => exact Nat.le_refl _
  | some n => exact Text.le_length_of_find? hfind

/-- The length of the mark at the front of a text together with a run of the class behind it; zero
where one of them is missing. -/
def markedLength (lit : String) (p : Char → Bool) (s : List Char) : Nat :=
  match Text.after? lit s with
  | none => 0
  | some rest =>
    if Text.spanLength p rest = 0 then 0 else lit.toList.length + Text.spanLength p rest

theorem markedLength_le (lit : String) (p : Char → Bool) (s : List Char) :
    markedLength lit p s ≤ s.length := by
  unfold markedLength
  cases hafter : Text.after? lit s with
  | none => exact Nat.zero_le _
  | some rest =>
    have hle := Text.spanLength_le p rest
    rw [Text.after?_eq_some.1 hafter, List.length_append]
    simp only
    split_ifs
    · exact Nat.zero_le _
    · exact Nat.add_le_add_left hle _

theorem versionLength_le (s : List Char) : versionLength s ≤ s.length :=
  markedLength_le "1." Char.isDigit s

theorem standaloneLength_le (s : List Char) : standaloneLength s ≤ s.length := by
  unfold standaloneLength
  split_ifs with hyes hno
  · exact Text.length_le_of_startsWith hyes
  · exact Text.length_le_of_startsWith hno
  · exact Nat.zero_le _

theorem pubidLiteralLength_le (s : List Char) : pubidLiteralLength s ≤ s.length := by
  cases s with
  | nil => exact Nat.le_refl 0
  | cons quote s =>
    unfold pubidLiteralLength
    simp only
    split_ifs with hquote hclosed
    · generalize hbody : Text.spanLength (fun c ↦ c != quote && isPubidChar c) s = body at hclosed ⊢
      cases hrest : s.drop body with
      | nil => simp [hrest] at hclosed
      | cons c rest =>
        have hlength := congrArg List.length hrest
        rw [List.length_drop, List.length_cons] at hlength
        rw [List.length_cons]
        omega
    · exact Nat.zero_le _
    · exact Nat.zero_le _

theorem parameterReferenceLength_le (s : List Char) : parameterReferenceLength s ≤ s.length := by
  unfold parameterReferenceLength
  split_ifs with hopening
  · exact Reference.closedLength_le
      (Text.add_le_length (Text.length_le_of_startsWith hopening) (Text.wordLength_le _))
  · exact Nat.zero_le _

theorem declarationMarkLength_le (s : List Char) : declarationMarkLength s ≤ s.length :=
  markedLength_le "<!" Char.isUpper s

/-- The lengths that XML is cut by, each with what is taken away from it. -/
def lengths : List (Nat × (List Char → Nat)) := [
  (7, commentLength), (12, cdataLength), (0, spaceLength), (0, nameLength), (0, referenceLength),
  (0, dataLength), (0, versionLength), (0, encodingLength), (0, standaloneLength),
  (0, systemLiteralLength), (0, pubidLiteralLength), (0, parameterReferenceLength),
  (0, declarationMarkLength)]

theorem hasRoom_lengths : ∀ entry ∈ lengths, Text.HasRoom entry.1 entry.2 := by
  simp only [lengths, List.forall_mem_cons]
  exact ⟨hasRoom_commentLength, hasRoom_cdataLength, Text.hasRoom_zero (Text.spanLength_le _),
    Text.hasRoom_zero Text.wordLength_le, Text.hasRoom_zero referenceLength_le,
    Text.hasRoom_zero dataLength_le, Text.hasRoom_zero versionLength_le,
    Text.hasRoom_zero Text.wordLength_le, Text.hasRoom_zero standaloneLength_le,
    Text.hasRoom_zero Text.quotedLength_le, Text.hasRoom_zero pubidLiteralLength_le,
    Text.hasRoom_zero parameterReferenceLength_le, Text.hasRoom_zero declarationMarkLength_le,
    List.forall_mem_nil _⟩

end Highlight.Xml
