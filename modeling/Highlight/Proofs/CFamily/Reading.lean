import Highlight.CFamily.Scan
import Highlight.Proofs.Comment
import Highlight.Proofs.Operator

/-!
# Reading C and C++ piece by piece

Every construct of C and C++ fits the text it reads, and there is one that advances at every
character, so that a program text is covered by its pieces.
-/

namespace Highlight.CFamily

open Piece (Covers width)

theorem spliceLength_le (s : List Char) : spliceLength s ≤ s.length := by
  unfold spliceLength
  split_ifs with h3 h2
  · exact Text.length_le_of_startsWith h3
  · rcases Bool.or_eq_true .. ▸ h2 with h | h
    · exact Text.length_le_of_startsWith h
    · exact Text.length_le_of_startsWith h
  · exact Nat.zero_le _

theorem lineLengthFrom_bounds (n : Nat) (s : List Char) :
    n ≤ lineLengthFrom n s ∧ lineLengthFrom n s ≤ n + s.length := by
  fun_induction lineLengthFrom n s with
  | case1 n => simp
  | case2 n c rest hend => simp
  | case3 n rest hend splice ih =>
    have hle := spliceLength_le ('\\' :: rest)
    rw [List.length_drop] at ih
    rw [List.length_cons] at hle ih ⊢
    omega
  | case4 n c rest hend hsplice ih =>
    rw [List.length_cons]
    omega

theorem hasRoom_lineCommentLength : Text.HasRoom 2 lineCommentLength := by
  intro s
  unfold lineCommentLength
  split_ifs with h
  · have hle := Text.length_le_of_startsWith h
    have hbounds := lineLengthFrom_bounds 2 (s.drop 2)
    rw [List.length_drop] at hbounds
    change 2 ≤ s.length at hle
    omega
  · exact .inl rfl

@[simp]
theorem fits_comment : comment.Fits := Construct.fits_firstOf (by simp)

theorem advances_comment : comment.Advances := by
  apply Construct.advances_firstOf
  simp only [List.forall_mem_cons]
  exact ⟨Comment.advances_line hasRoom_lineCommentLength, Comment.advances_block,
    List.forall_mem_nil _⟩

theorem escape_of_literalTurn {quote : Char} {s : List Char} {ps : List (Piece Kind)}
    (h : literalTurn quote s = .aside ps) :
    ∃ rest, s = '\\' :: rest ∧ ps = [.token .escape (s.take (escapeLength s))] := by
  unfold literalTurn at h
  split at h
  · simp at h
  · next c rest =>
    split_ifs at h with hend hquote hbackslash
    obtain rfl := Turn.aside.inj h
    exact ⟨rest, by rw [hbackslash], rfl⟩

theorem escapeLength_pos (rest : List Char) : 0 < escapeLength ('\\' :: rest) := by
  cases rest with
  | nil => exact Nat.one_pos
  | cons c after =>
    rw [escapeLength]
    split_ifs <;> omega

theorem fits_literalTurn (quote : Char) : Turn.Fits (literalTurn quote) := by
  intro s ps h
  obtain ⟨rest, -, rfl⟩ := escape_of_literalTurn h
  exact Construct.fits_take _ _ s

theorem advances_literalTurn (quote : Char) : Turn.Advances (literalTurn quote) := by
  intro s ps h
  obtain ⟨rest, rfl, rfl⟩ := escape_of_literalTurn h
  have hpos := escapeLength_pos rest
  exact Piece.width_take_pos rfl (Nat.ne_of_gt hpos) (List.cons_ne_nil _ _)

@[simp]
theorem fits_literal : literal.Fits := by
  apply Construct.fits_of_read fun _ ↦ rfl
  intro s ps h
  unfold literal at h
  simp only at h
  split at h
  · split_ifs at h
    exact (Construct.fits_parts (fits_literalTurn _)).read s ps h
  · simp at h

theorem advances_literal : literal.Advances := by
  intro s ps h
  unfold literal at h
  simp only at h
  split at h
  · next quote rest hdrop =>
    split_ifs at h
    have hle := Construct.le_width_parts (fits_literalTurn _) h
    have hlength := congrArg List.length hdrop
    rw [List.length_drop, List.length_cons] at hlength
    omega
  · simp at h

theorem covers_directiveMark (blanks name : List Char) :
    Covers (directiveMark blanks name) ('#' :: (blanks ++ name)) := by
  unfold directiveMark
  split
  · next hblanks =>
    rw [List.isEmpty_iff.1 hblanks]
    exact Piece.covers_token _ _
  · have hcovers := (Piece.covers_token Kind.directive ['#']).append
      ((Piece.covers_gap blanks).append (Piece.covers_shown Kind.directive name))
    exact hcovers

section

variable [Text.IdentifierClasses]

@[simp]
theorem fits_operand (name : List Char) : (operand name).Fits := by
  unfold operand
  split_ifs
  · exact Construct.fits_seq (by simp [Construct.fits_optional])
  · exact Construct.fits_seq (by simp [Construct.fits_optional])
  · exact Construct.fits_seq (by simp)

@[simp]
theorem fits_directive : directive.Fits := by
  apply Construct.fits_of_read fun _ ↦ rfl
  intro s ps h
  unfold directive at h
  cases hafter : Text.after? "#" s with
  | none => simp [hafter] at h
  | some rest =>
    simp only [hafter] at h
    obtain ⟨mark, rs, hmark, hoperand, rfl⟩ := Construct.seq_cons_eq_some.1 h
    obtain rfl := Option.some.inj hmark
    rw [Piece.fits_append]
    constructor
    · refine (covers_directiveMark _ _).1.mono ?_
      obtain rfl := Text.after?_eq_some.1 hafter
      change '#' :: _ <+: '#' :: rest
      rw [List.cons_prefix_cons]
      refine ⟨rfl, ?_⟩
      have hfront := (List.prefix_append_right_inj (rest.takeWhile isBlank)).2
        (List.take_prefix (identifierLength (rest.drop (rest.takeWhile isBlank).length))
          (rest.drop (rest.takeWhile isBlank).length))
      rwa [Text.takeWhile_append_drop] at hfront
    · exact (Construct.fits_seq (by simp)).read _ _ hoperand

theorem advances_directive : directive.Advances := by
  intro s ps h
  unfold directive at h
  cases hafter : Text.after? "#" s with
  | none => simp [hafter] at h
  | some rest =>
    simp only [hafter] at h
    obtain ⟨mark, rs, hmark, -, rfl⟩ := Construct.seq_cons_eq_some.1 h
    obtain rfl := Option.some.inj hmark
    rw [Piece.width_append, (covers_directiveMark _ _).2, List.length_cons]
    omega

@[simp]
theorem fits_word (dialect : Dialect) (strict : Bool) : (word dialect strict).Fits := by
  apply Construct.fits_of_read fun _ ↦ rfl
  intro s ps h
  unfold word at h
  simp only at h
  split_ifs at h
  obtain rfl := Option.some.inj h
  exact Construct.fits_take _ _ s

theorem advances_word (dialect : Dialect) (strict : Bool) : (word dialect strict).Advances := by
  intro s ps h
  unfold word at h
  simp only at h
  split_ifs at h with hempty
  obtain rfl := Option.some.inj h
  rw [List.isEmpty_iff] at hempty
  exact Piece.width_single_pos hempty

end

@[simp]
theorem fits_operator : operator.Fits := by
  apply Construct.fits_of_read fun _ ↦ rfl
  intro s ps h
  obtain ⟨op, hop, hps⟩ := Option.bind_eq_some_iff.1 h
  obtain rfl := Option.some.inj hps
  exact (Piece.fits_token _ _ _).2 (Operator.prefix_of_find? hop).2

theorem toList_ne_nil_of_mem_operators : ∀ op ∈ operators, op.toList ≠ [] := by
  decide

theorem advances_operator : operator.Advances := by
  intro s ps h
  obtain ⟨op, hop, hps⟩ := Option.bind_eq_some_iff.1 h
  obtain rfl := Option.some.inj hps
  have hmem := (Operator.prefix_of_find? hop).1
  exact Piece.width_single_pos (toList_ne_nil_of_mem_operators op hmem)

@[simp]
theorem fits_junk : junk.Fits := Construct.fits_measured _ _

theorem advances_junk : junk.Advances := Construct.advances_measured rfl

variable [Text.IdentifierClasses]

theorem fits_code (dialect : Dialect) (strict atLineStart : Bool) :
    (code dialect strict atLineStart).Fits :=
  Construct.fits_firstOf (by simp [Construct.fits_onlyIf, rawString])

theorem advances_code (dialect : Dialect) (strict atLineStart : Bool) :
    (code dialect strict atLineStart).Advances := by
  apply Construct.advances_firstOf
  simp only [List.forall_mem_cons]
  exact ⟨Construct.advances_onlyIf advances_directive,
    Construct.advances_onlyIf (Construct.advances_measured rfl), advances_literal,
    Construct.advances_measured rfl, advances_word dialect strict, advances_operator, advances_junk,
    List.forall_mem_nil _⟩

/-- A character that begins nothing else is there as an error. -/
theorem isSome_code (dialect : Dialect) (strict atLineStart : Bool) (c : Char) (s : List Char) :
    (code dialect strict atLineStart (c :: s)).isSome := by
  have hlast : (junk (c :: s)).isSome := by simp [junk, Construct.measured]
  exact Construct.isSome_firstOf (by simp) hlast

theorem fits_item (dialect : Dialect) (strict : Bool) : StepFits (item dialect strict) := by
  intro atLineStart s ps next h
  unfold item at h
  simp only at h
  split_ifs at h
  · obtain ⟨rfl, -⟩ := Prod.mk.inj (Option.some.inj h)
    exact (Piece.fits_gap _ _).2 (List.takeWhile_prefix _)
  · obtain ⟨rfl, -⟩ := Prod.mk.inj (Option.some.inj h)
    exact (Piece.fits_gap _ _).2 (List.take_prefix _ _)
  · split at h
    · next pieces hcomment =>
      obtain ⟨rfl, -⟩ := Prod.mk.inj (Option.some.inj h)
      exact fits_comment.read _ _ hcomment
    · obtain ⟨qs, hcode, hqs⟩ := Option.map_eq_some_iff.1 h
      obtain ⟨rfl, -⟩ := Prod.mk.inj hqs
      exact (fits_code dialect strict atLineStart).read _ _ hcode

/-- Where white space and splices are not, a character remains that is at least an error. -/
theorem advances_item (dialect : Dialect) (strict : Bool) : StepAdvances (item dialect strict) := by
  intro atLineStart s ps next hs h
  unfold item at h
  simp only at h
  split_ifs at h with hspace hsplice
  · obtain ⟨rfl, -⟩ := Prod.mk.inj (Option.some.inj h)
    have hne : s.takeWhile isSpace ≠ [] := by simpa using hspace
    exact Piece.width_single_pos hne
  · obtain ⟨rfl, -⟩ := Prod.mk.inj (Option.some.inj h)
    exact Piece.width_take_pos rfl hsplice hs
  · split at h
    · next pieces hcomment =>
      obtain ⟨rfl, -⟩ := Prod.mk.inj (Option.some.inj h)
      exact advances_comment _ _ hcomment
    · obtain ⟨qs, hcode, hqs⟩ := Option.map_eq_some_iff.1 h
      obtain ⟨rfl, -⟩ := Prod.mk.inj hqs
      exact advances_code dialect strict atLineStart _ _ hcode

theorem isSome_item (dialect : Dialect) (strict atLineStart : Bool) (c : Char) (s : List Char) :
    (item dialect strict atLineStart (c :: s)).isSome := by
  unfold item
  simp only
  split_ifs
  · rfl
  · rfl
  · split
    · rfl
    · rw [Option.isSome_map]
      exact isSome_code dialect strict atLineStart c s

/-- A program text is covered by its pieces. -/
theorem covers_scan (dialect : Dialect) (strict : Bool) (s : List Char) :
    Covers (scan dialect strict s) s :=
  covers_run (fits_item dialect strict) (advances_item dialect strict) (isSome_item dialect strict)
    true s

end Highlight.CFamily
