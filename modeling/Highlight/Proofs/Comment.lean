import Highlight.Comment
import Highlight.Proofs.Piece.Gaps
import Highlight.Proofs.Text.Steady

/-!
# Comments that fit and advance

What is common to the comments of C, of scripts and of data: how much of a text a block comment is,
and that the pieces of a comment cover it without gaps.
-/

namespace Highlight.Comment

open Piece (Covers width)

/-- A block comment has room for its delimiters, of which it may lack the closing one. -/
theorem hasRoom_blockExtent : Text.HasRoom 2 fun s ↦ (blockExtent s).length := by
  intro s
  cases hafter : Text.after? "/*" s with
  | none => simp [blockExtent, hafter]
  | some body =>
    have hopen := congrArg List.length (Text.after?_eq_some.1 hafter)
    rw [List.length_append] at hopen
    change s.length = 2 + body.length at hopen
    cases hfind : Text.findLiteral? "*/" body with
    | none =>
      simp only [blockExtent, hafter, hfind]
      omega
    | some n =>
      have hle := Text.add_length_le_of_findLiteral? hfind
      simp only [blockExtent, hafter, hfind]
      change n + 2 ≤ body.length at hle
      omega

/-- A closed block comment has room for both delimiters. -/
theorem hasRoom_closedBlock :
    Text.HasRoom 4 fun s ↦ if (blockExtent s).terminated then (blockExtent s).length else 0 := by
  intro s
  have hroom := hasRoom_blockExtent.le_length s
  cases hafter : Text.after? "/*" s with
  | none => simp [blockExtent, hafter]
  | some body =>
    cases hfind : Text.findLiteral? "*/" body with
    | none => simp [blockExtent, hafter, hfind]
    | some n =>
      simp only [blockExtent, hafter, hfind, if_true] at hroom ⊢
      omega

/-- A closed block comment ends where it does whatever follows. -/
theorem blockExtent_append {s : List Char} (h : (blockExtent s).terminated)
    (t : List Char) : blockExtent (s ++ t) = blockExtent s := by
  cases hafter : Text.after? "/*" s with
  | none => simp [blockExtent, hafter] at h
  | some body =>
    cases hfind : Text.findLiteral? "*/" body with
    | none => simp [blockExtent, hafter, hfind] at h
    | some n =>
      simp [blockExtent, hafter, hfind, Text.after?_append hafter,
        Text.findLiteral?_append (by decide) hfind]

/-- How far a block comment reaches is decided by the comment. -/
theorem steady_blockExtent : Text.Steady Text.Extent.length blockExtent := by
  refine Text.steady_after "/*" (Text.extentTo "*/")
    (fun inside ↦ ⟨2 + inside.length, inside.terminated⟩) {} ?_ ?_ (Text.steady_extentTo "*/")
  · intro s
    unfold blockExtent Text.extentTo
    cases hafter : Text.after? "/*" s with
    | none => rfl
    | some body =>
      have hopen := congrArg List.length (Text.after?_eq_some.1 hafter)
      rw [List.length_append] at hopen
      change s.length = 2 + body.length at hopen
      simp only [Option.elim_some, Function.comp_apply]
      cases Text.findLiteral? "*/" body with
      | none => simp [hopen]
      | some n => simp [Nat.add_assoc]
  · exact fun _ ↦ .inr rfl

theorem covers_linePieces (text : List Char) : Covers (linePieces text) text :=
  Piece.covers_framed ..

theorem covers_blockPieces (terminated : Bool) (text : List Char) :
    Covers (blockPieces terminated text) text :=
  Piece.covers_framed ..

theorem covers_line {length : List Char → Nat} {s : List Char} {ps : List (Piece Kind)}
    (h : line length s = some ps) : length s ≠ 0 ∧ Covers ps (s.take (length s)) := by
  unfold line at h
  simp only at h
  split_ifs at h with hn
  obtain rfl := Option.some.inj h
  exact ⟨hn, covers_linePieces _⟩

@[simp]
theorem fits_line (length : List Char → Nat) : (line length).Fits :=
  Construct.fits_of_covers (fun _ _ ↦ covers_line) fun _ ↦ rfl

theorem advances_line {frame : Nat} {length : List Char → Nat} (hroom : Text.HasRoom frame length) :
    (line length).Advances :=
  Construct.advances_of_covers (fun _ _ ↦ covers_line) hroom.length_nil

theorem covers_block {s : List Char} {ps : List (Piece Kind)} (h : block s = some ps) :
    (blockExtent s).length ≠ 0 ∧ Covers ps (s.take (blockExtent s).length) := by
  unfold block at h
  simp only at h
  split_ifs at h with hn
  obtain rfl := Option.some.inj h
  exact ⟨hn, covers_blockPieces _ _⟩

@[simp]
theorem fits_block : block.Fits :=
  Construct.fits_of_covers (fun _ _ ↦ covers_block) fun _ ↦ rfl

theorem advances_block : block.Advances :=
  Construct.advances_of_covers (fun _ _ ↦ covers_block) hasRoom_blockExtent.length_nil

@[simp]
theorem gapsIn_line {form : List Char → Prop} (length : List Char → Nat) :
    (line length).GapsIn form := by
  intro s ps h
  unfold line at h
  simp only at h
  split_ifs at h
  obtain rfl := Option.some.inj h
  exact Piece.gapsIn_framed _ _ _ _ _

@[simp]
theorem gapsIn_block {form : List Char → Prop} : block.GapsIn form := by
  intro s ps h
  unfold block at h
  simp only at h
  split_ifs at h
  obtain rfl := Option.some.inj h
  exact Piece.gapsIn_framed _ _ _ _ _

end Highlight.Comment
