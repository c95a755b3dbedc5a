import Highlight.JavaScript.Comment
import Highlight.Proofs.Comment

/-!
# Comments of scripts that fit and advance
-/

namespace Highlight.JavaScript

/-- What reaches to the end of its line has room for its opening. -/
theorem hasRoom_restOfLine {opening : String} (hopening : opening.length = 2) :
    Text.HasRoom 2 (restOfLine opening) := by
  intro s
  cases hafter : Text.after? opening s with
  | none => simp [restOfLine, hafter]
  | some rest =>
    have hopen := congrArg List.length (Text.after?_eq_some.1 hafter)
    rw [List.length_append, String.length_toList, hopening] at hopen
    have hle := Text.spanLength_le (!isLineTerminator ·) rest
    simp only [restOfLine, hafter, hopening]
    omega

theorem hasRoom_lineCommentLength : Text.HasRoom 2 lineCommentLength :=
  hasRoom_restOfLine (by decide)

theorem hasRoom_hashbangLength : Text.HasRoom 2 hashbangLength := hasRoom_restOfLine (by decide)

@[simp]
theorem fits_comment : comment.Fits := Construct.fits_firstOf (by simp)

theorem advances_comment : comment.Advances := by
  apply Construct.advances_firstOf
  simp only [List.forall_mem_cons]
  exact ⟨Comment.advances_line hasRoom_lineCommentLength, Comment.advances_block,
    List.forall_mem_nil _⟩

theorem comment_eq_none {c : Char} (hc : c ≠ '/') (s : List Char) : comment (c :: s) = none := by
  have hline := Text.after?_cons_eq_none "//" rfl hc s
  have hblock := Text.after?_cons_eq_none "/*" rfl hc s
  refine Construct.firstOf_eq_none_iff.2 ?_
  simp only [List.forall_mem_cons]
  refine ⟨?_, ?_, List.forall_mem_nil _⟩
  · simp [Comment.line, lineCommentLength, restOfLine, hline]
  · simp [Comment.block, Comment.blockExtent, hblock]

theorem gapsIn_comment {form : List Char → Prop} : comment.GapsIn form := by
  apply Construct.gapsIn_firstOf
  simp only [List.forall_mem_cons]
  exact ⟨Comment.gapsIn_line _, Comment.gapsIn_block, List.forall_mem_nil _⟩

end Highlight.JavaScript
