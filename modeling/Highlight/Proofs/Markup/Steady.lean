import Highlight.Proofs.Html.Reading
import Highlight.Proofs.Piece.Steady
import Highlight.Proofs.Xml.Declaration

/-!
# What measures of markup look at

Every length that is measured on markup is steady. Most forms of XML end with a delimiter and are
decided by it; names and white space go on as far as they can. A comment of HTML that is not closed
takes all the rest, and then there is nothing behind it.
-/

namespace Highlight

namespace Xml

theorem steady_commentLength : Text.Steady id commentLength :=
  measures_comment.steady hasRoom_commentLength.le_length takes_comment_iff

theorem steady_cdataLength : Text.Steady id cdataLength :=
  measures_cdata.steady hasRoom_cdataLength.le_length takes_cdata_iff

theorem steady_systemLiteralLength : Text.Steady id systemLiteralLength :=
  Text.steady_quotedLength

theorem steady_pubidLiteralLength : Text.Steady id pubidLiteralLength :=
  (Construct.measures_measured Kind.string pubidLiteralLength).steady pubidLiteralLength_le
    takes_pubidLiteral_iff

theorem steady_referenceLength : Text.Steady id referenceLength :=
  Reference.steady_length (by decide) (Text.greedy_wordLength _ _)

theorem steady_versionLength : Text.Steady id versionLength := by
  refine Text.steady_after "1." (Text.spanLength Char.isDigit)
    (fun digits ↦ if digits = 0 then 0 else 2 + digits) 0 ?_ ?_
    (Text.greedy_spanLength Char.isDigit).steady
  · intro s
    unfold versionLength
    cases Text.after? "1." s <;> rfl
  · intro digits
    simp only [id_eq]
    split_ifs with hdigits
    · exact .inl ⟨hdigits, rfl⟩
    · exact .inr rfl

theorem steady_standaloneLength : Text.Steady id standaloneLength :=
  .ite (Text.reaches_startsWith "yes") (fun _ _ ↦ Nat.le_refl 3) (Text.steady_const id 3)
    (.ite (Text.reaches_startsWith "no") (fun _ _ ↦ Nat.le_refl 2) (Text.steady_const id 2)
      (Text.steady_const id 0))

end Xml

namespace Html

theorem steady_referenceLength : Text.Steady id referenceLength :=
  Reference.steady_length (by decide) (Text.greedy_spanLength _)

theorem steady_doctypeLength : Text.Steady id doctypeLength := by
  have hopening : Text.Reaches 9 fun s ↦ Text.sameIgnoringCase (s.take 9) doctypeOpening := by
    constructor
    · intro s h
      have hlength := congrArg List.length (beq_iff_eq.1 h)
      rw [List.length_map, List.length_map, List.length_take] at hlength
      change min 9 s.length = 9 at hlength
      omega
    · intro s r h
      rw [List.take_append_of_le_length h]
  refine Text.steady_behind hopening (Text.findIn? (· == '>'))
    (fun found ↦ found.elim 0 (9 + · + 1)) 0 ?_ ?_ (Text.steady_findIn? _)
  · intro s
    have hlength : doctypeOpening.length = 9 := rfl
    simp only [doctypeLength, hlength]
    cases Text.findIn? (· == '>') (s.drop 9) <;> rfl
  · intro found
    cases found with
    | none => exact .inl ⟨rfl, rfl⟩
    | some m => exact .inr (Nat.add_assoc 9 m 1)

/-- How far a comment reaches behind its opening. -/
def commentRest (body : List Char) : CommentExtent :=
  if Text.startsWith ">" body then ⟨1, true, true⟩
  else if Text.startsWith "->" body then ⟨2, true, true⟩
  else
    let extent := Text.extentTo "-->" body
    ⟨extent.length, false, extent.terminated⟩

theorem steady_commentRest : Text.Steady CommentExtent.length commentRest := by
  refine .ite (Text.reaches_startsWith ">") (fun _ _ ↦ Nat.le_refl 1) (Text.steady_const _ _)
    (.ite (Text.reaches_startsWith "->") (fun _ _ ↦ Nat.le_refl 2) (Text.steady_const _ _) ?_)
  intro u r hle
  simp only at hle ⊢
  rw [Text.steady_extentTo "-->" u r hle]

/-- How a comment ends is decided behind its opening. -/
theorem steady_commentExtent : Text.Steady CommentExtent.length commentExtent := by
  refine Text.steady_after "<!--" commentRest
    (fun rest ↦ ⟨4 + rest.length, rest.abrupt, rest.terminated⟩) {} ?_ ?_ steady_commentRest
  · intro s
    unfold commentExtent commentRest Text.extentTo
    cases hafter : Text.after? "<!--" s with
    | none => rfl
    | some body =>
      have hopen := congrArg List.length (Text.after?_eq_some.1 hafter)
      rw [List.length_append] at hopen
      change s.length = 4 + body.length at hopen
      simp only [Option.elim_some, Function.comp_apply]
      split_ifs
      · rfl
      · rfl
      · cases Text.findLiteral? "-->" body with
        | none => simp [hopen]
        | some n => simp [Nat.add_assoc]
  · exact fun _ ↦ .inr rfl

end Html

end Highlight
