import Highlight.Proofs.JavaScript.Balance
import Highlight.Proofs.JavaScript.Name

/-!
# White space and comments in tags

What may stand between the parts of a tag, as pieces. The pieces that a tag leaves are of this form,
and text of this form is taken up to where neither white space nor a comment begins. It does not
matter how white space is cut into pieces, so pieces of this form may be put one behind the other,
and they may be parted everywhere but behind a line comment, which goes on up to the end of its
line.
-/

namespace Highlight.JavaScript

open Construct (measured skipSome Takes TakesMany LeavesMany)
open Grammar (LineComment BlockComment)
open Piece (textOf lasting)

variable {u r : List Char}

theorem textOf_single {κ : Type} (piece : Piece κ) : textOf [piece] = piece.text :=
  List.append_nil _

def triviaParts : List (Construct TagPart) :=
  [skipSome (Text.spanLength isSpace), measured .comment lineCommentLength,
    measured .comment closedCommentLength]

theorem triviaPart_eq : triviaPart = .firstOf triviaParts := rfl

theorem fits_triviaParts : ∀ d ∈ triviaParts, d.Fits := by simp [triviaParts]

/-- The white space or the comment that the text calls for. -/
def triviaFor (s : List Char) : Construct TagPart :=
  if Text.startsIn isSpace s then skipSome (Text.spanLength isSpace)
  else if Text.startsWith "//" s then measured .comment lineCommentLength
  else measured .comment closedCommentLength

theorem isSpace_slash : isSpace '/' = false := by decide

theorem startsIn_isSpace_of_comment {lit : String} (hlit : lit.toList.head? = some '/')
    {s : List Char} (h : Text.startsWith lit s) : Text.startsIn isSpace s = false := by
  obtain ⟨rest, hrest⟩ := List.head?_eq_some_iff.1 hlit
  obtain ⟨behind, rfl⟩ := Text.startsWith_iff.1 h
  rw [hrest]
  exact isSpace_slash

/-- White space and comments are told by how they begin. -/
theorem triviaFor_eq : ∀ d ∈ triviaParts, ∀ a b, d.Takes a b → triviaFor (a ++ b) = d := by
  simp only [triviaParts, List.forall_mem_cons]
  refine ⟨?_, ?_, ?_, List.forall_mem_nil _⟩
  · intro a b h
    rw [(Construct.measures_skipSome _).takes_iff (Text.spanLength_le _),
      Text.spanLength_append_iff] at h
    obtain ⟨c, a, rfl⟩ := List.exists_cons_of_ne_nil h.1
    have hspace : Text.startsIn isSpace (c :: a ++ b) := h.2.1 c List.mem_cons_self
    rw [triviaFor, if_pos hspace]
  · intro a b h
    rw [(Construct.measures_measured _ _).takes_iff hasRoom_lineCommentLength.le_length] at h
    have hline := ((lineCommentLength_append_iff h.1).1 h.2).1.startsWith b
    rw [triviaFor, startsIn_isSpace_of_comment rfl hline, if_neg Bool.false_ne_true, if_pos hline]
  · intro a b h
    rw [(Construct.measures_measured _ _).takes_iff hasRoom_closedCommentLength.le_length] at h
    have hblock := ((closedCommentLength_append_iff h.1).1 h.2).startsWith b
    have hline : ¬ Text.startsWith "//" (a ++ b) := fun hline ↦ not_startsWith_both hline hblock
    rw [triviaFor, startsIn_isSpace_of_comment rfl hblock, if_neg Bool.false_ne_true, if_neg hline]

/-- A part is a run of white space or a comment, each as long as it can be in front of `r`. -/
inductive TriviaPart (r : List Char) : List (Piece TagPart) → Prop
  | space {g : List Char} : g ≠ [] → (∀ c ∈ g, isSpace c) → Text.startsIn isSpace r = false →
      TriviaPart r [.gap g]
  | lineComment {s : List Char} : LineComment s → Text.startsIn (!isLineTerminator ·) r = false →
      TriviaPart r [.token .comment s]
  | blockComment {s : List Char} : BlockComment s → TriviaPart r [.token .comment s]

theorem Grammar.LineComment.ne_nil (h : LineComment u) : u ≠ [] := by
  obtain ⟨-⟩ := h
  exact List.cons_ne_nil _ _

theorem Grammar.BlockComment.ne_nil (h : BlockComment u) : u ≠ [] := by
  obtain ⟨-⟩ := h
  exact List.cons_ne_nil _ _

/-- What a part of trivia leaves is a run of white space or a comment that cannot go on. -/
theorem leaves_triviaPart_iff {ps : List (Piece TagPart)} :
    triviaPart.Leaves ps r ↔ TriviaPart r ps := by
  have hspace : (skipSome (Text.spanLength isSpace)).Leaves ps r ↔
      ∃ g, ps = [.gap g] ∧ g ≠ [] ∧ (∀ c ∈ g, isSpace c) ∧ Text.startsIn isSpace r = false := by
    simp only [Construct.leaves_skipSome_iff (Text.spanLength_le _), Text.spanLength_append_iff]
  have hline : (measured .comment lineCommentLength).Leaves ps r ↔
      ∃ s, ps = [.token .comment s] ∧ s ≠ [] ∧ lineCommentLength (s ++ r) = s.length :=
    Construct.leaves_measured_iff hasRoom_lineCommentLength.le_length
  have hblock : (measured .comment closedCommentLength).Leaves ps r ↔
      ∃ s, ps = [.token .comment s] ∧ s ≠ [] ∧ closedCommentLength (s ++ r) = s.length :=
    Construct.leaves_measured_iff hasRoom_closedCommentLength.le_length
  rw [triviaPart_eq]
  constructor
  · intro h
    obtain ⟨d, hd, hleaves⟩ := Construct.exists_leaves_of_firstOf h
    simp only [triviaParts, List.mem_cons, List.not_mem_nil, or_false] at hd
    rcases hd with rfl | rfl | rfl
    · obtain ⟨g, rfl, hg, hall, hends⟩ := hspace.1 hleaves
      exact .space hg hall hends
    · obtain ⟨s, rfl, hs, hlength⟩ := hline.1 hleaves
      obtain ⟨hcomment, hends⟩ := (lineCommentLength_append_iff hs).1 hlength
      exact .lineComment hcomment hends
    · obtain ⟨s, rfl, hs, hlength⟩ := hblock.1 hleaves
      exact .blockComment ((closedCommentLength_append_iff hs).1 hlength)
  · intro h
    obtain ⟨d, hd, hleaves⟩ : ∃ d ∈ triviaParts, d.Leaves ps r := by
      rcases h with ⟨hg, hall, hends⟩ | ⟨hcomment, hends⟩ | hcomment
      · exact ⟨_, List.mem_cons_self, hspace.2 ⟨_, rfl, hg, hall, hends⟩⟩
      · have hlength := (lineCommentLength_append_iff hcomment.ne_nil).2 ⟨hcomment, hends⟩
        exact ⟨_, by simp [triviaParts], hline.2 ⟨_, rfl, hcomment.ne_nil, hlength⟩⟩
      · have hlength := (closedCommentLength_append_iff (r := r) hcomment.ne_nil).2 hcomment
        exact ⟨_, by simp [triviaParts], hblock.2 ⟨_, rfl, hcomment.ne_nil, hlength⟩⟩
    exact Construct.leaves_firstOf fits_triviaParts triviaFor_eq hd hleaves

/-- Nothing stands between parts where neither white space nor a comment begins. -/
theorem triviaPart_eq_none {c : Char} {s : List Char} (hspace : isSpace c = false)
    (hcomment : c = '/' → Text.startsIn (fun d ↦ d == '/' || d == '*') s = false) :
    triviaPart (c :: s) = none := by
  obtain ⟨hline, hblock⟩ := begins_no_comment_iff.1 hcomment
  have hlength : Text.spanLength isSpace (c :: s) = 0 := Text.spanLength_eq_zero_iff.2 hspace
  refine Construct.firstOf_eq_none_iff.2 ?_
  simp only [List.forall_mem_cons]
  refine ⟨?_, Construct.measured_of_eq_zero ?_, Construct.measured_of_eq_zero ?_,
    List.forall_mem_nil _⟩
  · simp [skipSome, hlength]
  · simp [lineCommentLength, restOfLine, Text.after?, hline]
  · simp [closedCommentLength, Comment.blockExtent, Text.after?, hblock]

/-- Pieces of white space and comments. A line comment goes up to the end of its line. -/
inductive Trivia : List (Piece TagPart) → Prop
  | nil : Trivia []
  | space {g : List Char} {ps : List (Piece TagPart)} : g ≠ [] → (∀ c ∈ g, isSpace c) → Trivia ps →
      Trivia (.gap g :: ps)
  | lineComment {s : List Char} {ps : List (Piece TagPart)} : LineComment s →
      Text.startsIn isLineTerminator (textOf ps) → Trivia ps → Trivia (.token .comment s :: ps)
  | blockComment {s : List Char} {ps : List (Piece TagPart)} : BlockComment s → Trivia ps →
      Trivia (.token .comment s :: ps)

variable {ps qs : List (Piece TagPart)}

theorem Trivia.append (hps : Trivia ps) (hqs : Trivia qs) : Trivia (ps ++ qs) := by
  induction hps with
  | nil => exact hqs
  | space hg hall _ ih => exact .space hg hall ih
  | @lineComment s ps hcomment hends _ ih =>
    refine .lineComment hcomment ?_ ih
    have hne : textOf ps ≠ [] := List.ne_nil_of_length_pos (Text.length_pos_of_startsIn hends)
    change Text.startsIn isLineTerminator (textOf (ps ++ qs))
    rw [Piece.textOf_append, Text.startsIn_append hne, hends]
  | blockComment hcomment _ ih => exact .blockComment hcomment ih

/-- Trivia begins with white space or with the slash of a comment. -/
theorem Trivia.exists_cons (h : Trivia ps) (hps : ps ≠ []) :
    ∃ c s, textOf ps = c :: s ∧ (isSpace c ∨ c = '/') := by
  cases h with
  | nil => exact absurd rfl hps
  | @space g _ hg hall _ =>
    obtain ⟨c, g, rfl⟩ := List.exists_cons_of_ne_nil hg
    exact ⟨c, _, rfl, .inl (hall c List.mem_cons_self)⟩
  | lineComment hcomment _ _ =>
    obtain ⟨-⟩ := hcomment
    exact ⟨'/', _, rfl, .inr rfl⟩
  | blockComment hcomment _ =>
    obtain ⟨-⟩ := hcomment
    exact ⟨'/', _, rfl, .inr rfl⟩

theorem startsIn_isSpace_of_lineTerminator {s : List Char}
    (h : Text.startsIn isLineTerminator s) : Text.startsIn isSpace s := by
  cases s with
  | nil => exact h
  | cons c s =>
    rw [Text.startsIn_cons] at h ⊢
    simp [isSpace, h]

theorem startsIn_isSpace_of_none {s : List Char} (h : triviaPart s = none) :
    Text.startsIn isSpace s = false := by
  have hspace := Construct.firstOf_eq_none_iff.1 h _ List.mem_cons_self
  rw [← Text.spanLength_eq_zero_iff]
  by_contra hlength
  exact Option.isSome_iff_ne_none.1 (Construct.isSome_skipSome hlength) hspace

/-- What a tag leaves between its parts is of the form. -/
theorem trivia_of_leavesMany (h : LeavesMany triviaPart ps r) (hr : r ≠ []) : Trivia ps := by
  induction h with
  | nil _ => exact .nil
  | @cons qs ps r hturn hrest ih =>
    have hbehind := ih hr
    rcases leaves_triviaPart_iff.1 hturn with ⟨hg, hall, -⟩ | ⟨hcomment, hends⟩ | hcomment
    · exact .space hg hall hbehind
    · -- The end of the line is white space, so it is read before the turns end.
      have hline := (Text.startsIn_not_iff (List.append_ne_nil_of_right_ne_nil _ hr)).1 hends
      refine .lineComment hcomment ?_ hbehind
      have hne : textOf ps ≠ [] := by
        intro hnil
        rw [hnil, List.nil_append] at hline
        have hspace := startsIn_isSpace_of_lineTerminator hline
        rw [startsIn_isSpace_of_none hrest.ends] at hspace
        exact Bool.noConfusion hspace
      rwa [Text.startsIn_append hne] at hline
    · exact .blockComment hcomment hbehind

theorem takes_triviaPart_space {g : List Char} (hg : g ≠ []) (hall : ∀ c ∈ g, isSpace c)
    (hr : Text.startsIn isSpace r = false) : triviaPart.Takes g r := by
  have hleaves := (leaves_triviaPart_iff.2 (.space hg hall hr)).takes
  rwa [textOf_single] at hleaves

/-- White space in front of what is taken is taken with it, in the same turn if that begins with
white space. -/
theorem takesMany_space {g t : List Char} (hg : g ≠ []) (hall : ∀ c ∈ g, isSpace c)
    (h : TakesMany triviaPart t r) : TakesMany triviaPart (g ++ t) r := by
  cases h with
  | nil hr => exact .cons (takes_triviaPart_space hg hall (startsIn_isSpace_of_none hr)) (.nil hr)
  | @cons a b _ ha hb =>
    have hbefore (hno : Text.startsIn isSpace (a ++ (b ++ r)) = false) :
        TakesMany triviaPart (g ++ (a ++ b)) r := by
      refine .cons (takes_triviaPart_space hg hall ?_) (.cons ha hb)
      rw [List.append_assoc]
      exact hno
    obtain ⟨ps, rfl, hleaves⟩ := ha.exists_leaves
    rcases leaves_triviaPart_iff.1 hleaves with ⟨hg', hall', hends⟩ | ⟨hcomment, hends⟩ | hcomment
    · rw [textOf_single, Piece.text, ← List.append_assoc]
      refine .cons (takes_triviaPart_space (List.append_ne_nil_of_left_ne_nil hg _) ?_ hends) hb
      exact List.forall_mem_append.2 ⟨hall, hall'⟩
    · rw [textOf_single, Piece.text] at hbefore ⊢
      exact hbefore (startsIn_isSpace_of_comment rfl (hcomment.startsWith _))
    · rw [textOf_single, Piece.text] at hbefore ⊢
      exact hbefore (startsIn_isSpace_of_comment rfl (hcomment.startsWith _))

/-- Trivia is taken part by part, and it ends where no other part begins. -/
theorem Trivia.takesMany (h : Trivia ps) (hr : triviaPart r = none) :
    TakesMany triviaPart (textOf ps) r := by
  induction h with
  | nil => exact .nil hr
  | space hg hall _ ih => exact takesMany_space hg hall ih
  | @lineComment s ps hcomment hends _ ih =>
    have hne : textOf ps ≠ [] := List.ne_nil_of_length_pos (Text.length_pos_of_startsIn hends)
    have hbehind : Text.startsIn (!isLineTerminator ·) (textOf ps ++ r) = false := by
      rwa [Text.startsIn_append hne, Text.startsIn_not_iff hne]
    have hturn := (leaves_triviaPart_iff.2 (.lineComment hcomment hbehind)).takes
    rw [textOf_single] at hturn
    exact .cons hturn ih
  | @blockComment s ps hcomment _ ih =>
    have hturn := (leaves_triviaPart_iff (r := textOf ps ++ r)).2 (.blockComment hcomment) |>.takes
    rw [textOf_single] at hturn
    exact .cons hturn ih

theorem Trivia.takes (h : Trivia ps) (hr : triviaPart r = none) : trivia.Takes (textOf ps) r :=
  (Construct.takes_many_iff advances_triviaPart fits_triviaPart).2 (h.takesMany hr)

end Highlight.JavaScript
