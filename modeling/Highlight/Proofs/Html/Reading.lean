import Highlight.Html.Scan
import Highlight.Proofs.Xml.Reading

/-!
# Reading HTML piece by piece

Every construct of HTML fits the text it reads, those that a loop repeats advance, and plain text is
there wherever nothing else is, so that a document is covered by its pieces.
-/

namespace Highlight.Html

open Piece (Covers width)

/-- A comment has room for its opening, also where it is not closed. -/
theorem hasRoom_commentExtent : Text.HasRoom 4 fun s ↦ (commentExtent s).length := by
  intro s
  cases hafter : Text.after? "<!--" s with
  | none => simp [commentExtent, hafter]
  | some body =>
    have hopen := congrArg List.length (Text.after?_eq_some.1 hafter)
    rw [List.length_append] at hopen
    change s.length = 4 + body.length at hopen
    by_cases habrupt : Text.startsWith ">" body
    · have hle := Text.length_le_of_startsWith habrupt
      simp only [commentExtent, hafter, habrupt, if_true]
      change 1 ≤ body.length at hle
      omega
    · by_cases hdash : Text.startsWith "->" body
      · have hle := Text.length_le_of_startsWith hdash
        simp only [commentExtent, hafter, habrupt, hdash, if_true, if_false, Bool.false_eq_true]
        change 2 ≤ body.length at hle
        omega
      · cases hfind : Text.findLiteral? "-->" body with
        | none =>
          simp only [commentExtent, hafter, habrupt, hdash, hfind, if_false, Bool.false_eq_true]
          omega
        | some n =>
          have hle := Text.add_length_le_of_findLiteral? hfind
          simp only [commentExtent, hafter, habrupt, hdash, hfind, if_false, Bool.false_eq_true]
          change n + 3 ≤ body.length at hle
          omega

/-- Each form of a comment is covered by its pieces. -/
theorem covers_comment {s : List Char} {ps : List (Piece Kind)} (h : comment s = some ps) :
    (commentExtent s).length ≠ 0 ∧ Covers ps (s.take (commentExtent s).length) := by
  unfold comment at h
  simp only at h
  split_ifs at h with hn habrupt hterminated <;> obtain rfl := Option.some.inj h
  · exact ⟨hn, Piece.covers_token _ _⟩
  · exact ⟨hn, Piece.covers_framed ..⟩
  · exact ⟨hn, Piece.covers_framed ..⟩

@[simp]
theorem fits_comment : comment.Fits :=
  Construct.fits_of_covers (fun _ _ ↦ covers_comment) fun _ ↦ rfl

theorem advances_comment : comment.Advances :=
  Construct.advances_of_covers (fun _ _ ↦ covers_comment) hasRoom_commentExtent.length_nil

/-- Where a document type declaration is, its `>` is the first one behind the opening. -/
theorem doctypeLength_eq {s : List Char} (h : doctypeLength s ≠ 0) :
    ∃ m, doctypeLength s = 9 + m + 1 ∧ Text.findIn? (· == '>') (s.drop 9) = some m := by
  unfold doctypeLength at h ⊢
  simp only at h ⊢
  by_cases hopening : Text.sameIgnoringCase (s.take doctypeOpening.length) doctypeOpening
  · simp only [hopening, if_true] at h ⊢
    cases hfind : Text.findIn? (· == '>') (s.drop doctypeOpening.length) with
    | none => simp [hfind] at h
    | some m => exact ⟨m, rfl, hfind⟩
  · simp [hopening] at h

theorem hasRoom_doctypeLength : Text.HasRoom 10 doctypeLength := by
  intro s
  by_cases h : doctypeLength s = 0
  · exact .inl h
  · obtain ⟨m, hlength, hfind⟩ := doctypeLength_eq h
    have hlt := Text.lt_length_of_findIn? hfind
    rw [List.length_drop] at hlt
    omega

theorem fits_doctypePart : StepFits doctypePart := by
  intro named s ps next h
  unfold doctypePart at h
  simp only at h
  split_ifs at h <;> obtain ⟨rfl, -⟩ := Prod.mk.inj (Option.some.inj h)
  · exact (Piece.fits_gap _ _).2 (List.take_prefix _ _)
  · exact Construct.fits_take _ _ s
  · exact Construct.fits_take _ _ s
  · exact (Piece.fits_shown _ _ _).2 (List.takeWhile_prefix _)

/-- A word of the declaration is not empty, since white space and quotes are read before it. -/
theorem advances_doctypePart : StepAdvances doctypePart := by
  intro named s ps next hs h
  obtain ⟨c, t, rfl⟩ := List.exists_cons_of_ne_nil hs
  unfold doctypePart at h
  simp only at h
  split_ifs at h with hspace hquote hclosed <;> obtain ⟨rfl, -⟩ := Prod.mk.inj (Option.some.inj h)
  · exact Piece.width_take_pos rfl hspace hs
  · exact Piece.width_take_pos rfl (Nat.succ_ne_zero _) hs
  · exact Piece.width_take_pos rfl hclosed hs
  · have hc : isSpace c = false := by
      by_contra hc
      simp [spaceLength, Text.spanLength_cons, hc] at hspace
    have hq : Text.isQuote c = false := by simpa using hquote
    rw [Piece.width_shown, List.takeWhile_cons_of_pos (by simp [hc, hq])]
    exact Nat.succ_pos _

theorem covers_doctypeInside (s : List Char) : Covers (run doctypePart false s) s := by
  apply covers_run fits_doctypePart advances_doctypePart
  intro named c s
  unfold doctypePart
  simp only
  split_ifs <;> rfl

/-- The last character of a declaration is the bracket that the search found. -/
@[simp]
theorem fits_doctype : doctype.Fits := by
  apply Construct.fits_of_read fun _ ↦ rfl
  intro s ps h
  by_cases hn : doctypeLength s = 0
  · simp [doctype, hn] at h
  · simp only [doctype, hn, if_false, Option.some.injEq] at h
    subst h
    obtain ⟨m, hlength, hfind⟩ := doctypeLength_eq hn
    have hlt := Text.lt_length_of_findIn? hfind
    obtain ⟨-, hhere, -⟩ := Text.find?_eq_some_iff.1 hfind
    have hinside := covers_doctypeInside ((s.drop 9).take m)
    have hopening : (s.take 9).length = 9 := by
      rw [List.length_drop] at hlt
      rw [List.length_take]
      omega
    have hwidth : width (run doctypePart false ((s.drop 9).take m)) = m := by
      rw [hinside.2, List.length_take]
      omega
    have hcut : doctypeLength s - 9 - 1 = m := by omega
    change Piece.Fits ([.token .directive (s.take 9)] ++
      run doctypePart false ((s.drop 9).take (doctypeLength s - 9 - 1)) ++
      [.token .directive ['>']]) s
    rw [hcut, Piece.fits_append, Piece.fits_append, Piece.width_append, hwidth]
    simp only [Piece.fits_token, Piece.text, hopening,
      Piece.width_cons, Piece.width_nil, Nat.add_zero]
    refine ⟨⟨List.take_prefix _ _, hinside.1.mono (List.take_prefix _ _)⟩, ?_⟩
    rw [← List.drop_drop]
    cases hrest : (s.drop 9).drop m with
    | nil => simp [hrest] at hhere
    | cons c rest =>
      rw [hrest] at hhere
      have hc : c = '>' := by simpa using hhere
      exact ⟨rest, by rw [hc, List.singleton_append]⟩

theorem advances_doctype : doctype.Advances := by
  intro s ps h
  by_cases hn : doctypeLength s = 0
  · simp [doctype, hn] at h
  · simp only [doctype, hn, if_false, Option.some.injEq] at h
    subst h
    rw [Piece.width_append]
    exact Nat.add_pos_right _ (Nat.succ_pos 0)

@[simp]
theorem fits_reference : reference.Fits := Construct.fits_measured _ _

theorem advances_reference : reference.Advances := Construct.advances_measured rfl

@[simp]
theorem fits_rawTextPart : rawTextPart.Fits := Construct.fits_firstOf (by simp)

theorem advances_rawTextPart : rawTextPart.Advances := by
  apply Construct.advances_firstOf
  simp only [List.forall_mem_cons]
  exact ⟨advances_reference, Construct.advances_skipSome rfl, List.forall_mem_nil _⟩

theorem isSome_rawTextPart (c : Char) (s : List Char) : (rawTextPart (c :: s)).isSome := by
  have hplain : plainLength (c :: s) ≠ 0 := by
    rw [plainLength]
    omega
  exact Construct.isSome_firstOf (by simp) (Construct.isSome_skipSome hplain)

theorem covers_rawText (content : TextContent) (s : List Char) : Covers (rawText content s) s := by
  cases content with
  | raw => exact Piece.covers_hidden s
  | escapable =>
    exact Construct.covers_repeated fits_rawTextPart advances_rawTextPart isSome_rawTextPart s

/-- Nothing but references is set into an attribute value. -/
theorem reference_of_valueTurn {s : List Char} {ps : List (Piece Kind)}
    (h : valueTurn s = .aside ps) : reference s = some ps := by
  unfold valueTurn at h
  split_ifs at h
  split at h
  · next pieces hreference =>
    obtain rfl := Turn.aside.inj h
    exact hreference
  · simp at h

theorem fits_valueTurn : Turn.Fits valueTurn :=
  fun _ _ h ↦ fits_reference.read _ _ (reference_of_valueTurn h)

theorem advances_valueTurn : Turn.Advances valueTurn :=
  fun _ _ h ↦ advances_reference _ _ (reference_of_valueTurn h)

@[simp]
theorem fits_attributeValue : attributeValue.Fits := by
  apply Construct.fits_of_read fun _ ↦ rfl
  intro s ps h
  unfold attributeValue at h
  simp only at h
  generalize (if Text.startsIn Text.isQuote s then Text.quotedLength s else unquotedLength s) = n
    at h
  by_cases hn : n = 0
  · simp [hn] at h
  · rw [if_neg hn] at h
    exact ((Construct.fits_parts fits_valueTurn).read _ _ h).mono (List.take_prefix _ _)

@[simp]
theorem fits_assignedValue : assignedValue.Fits := by
  apply Construct.fits_choose
  intro s
  split_ifs
  · exact Construct.fits_seq (by simp)
  · exact Construct.fits_seq (by simp)

@[simp]
theorem fits_tagAttribute : tagAttribute.Fits := Construct.fits_seq (by simp)

theorem advances_tagAttribute : tagAttribute.Advances :=
  Construct.advances_seq List.mem_cons_self (Construct.advances_measured rfl)

@[simp]
theorem fits_straySlash : straySlash.Fits := by
  apply Construct.fits_of_read fun _ ↦ rfl
  intro s ps h
  unfold straySlash at h
  simp only at h
  split_ifs at h
  exact (Construct.fits_skipLiteral "/").read s ps h

theorem advances_straySlash : straySlash.Advances := by
  intro s ps h
  unfold straySlash at h
  simp only at h
  split_ifs at h
  exact Construct.advances_skipLiteral (by decide) s ps h

@[simp]
theorem fits_tagPart : tagPart.Fits := Construct.fits_firstOf (by simp)

theorem advances_tagPart : tagPart.Advances := by
  apply Construct.advances_firstOf
  simp only [List.forall_mem_cons]
  exact ⟨Construct.advances_skipSome rfl, advances_straySlash, advances_tagAttribute,
    List.forall_mem_nil _⟩

@[simp]
theorem fits_tagEnd (name : List Char) : (tagEnd name).Fits := by
  apply Construct.fits_of_read fun _ ↦ rfl
  intro s ps h
  unfold tagEnd at h
  simp only at h
  split_ifs at h with hclose
  · have hfront : ['>'] <+: s := Text.startsWith_iff.1 hclose
    split at h <;> obtain rfl := Option.some.inj h
    · rw [Piece.fits_cons, Piece.stands_token]
      exact ⟨hfront, (covers_rawText _ _).1.mono (List.take_prefix _ _)⟩
    · rwa [Piece.fits_token]
  · exact (Construct.fits_literal _ _).read s ps h

@[simp]
theorem fits_startTag : startTag.Fits :=
  Construct.fits_choose fun _ ↦ Construct.fits_seq (by simp)

@[simp]
theorem fits_endTag : endTag.Fits := Construct.fits_seq (by simp)

theorem fits_item : item.Fits := Construct.fits_firstOf (by simp)

theorem advances_item : item.Advances := by
  have hopening {label : Kind} {lit : String} {cs : List (Construct Kind)}
      (hlit : lit.toList ≠ []) : (Construct.seq (.literal label lit :: cs)).Advances :=
    Construct.advances_seq List.mem_cons_self (Construct.advances_literal hlit)
  apply Construct.advances_firstOf
  simp only [List.forall_mem_cons]
  exact ⟨advances_comment, advances_doctype, Xml.advances_cdata, hopening (by decide),
    Construct.advances_choose fun _ ↦ hopening (by decide), advances_reference,
    Construct.advances_skipSome rfl, List.forall_mem_nil _⟩

/-- Plain text is an item wherever there is no other. -/
theorem isSome_item (c : Char) (s : List Char) : (item (c :: s)).isSome := by
  have htext : textLength (c :: s) ≠ 0 := by
    rw [textLength]
    omega
  exact Construct.isSome_firstOf (by simp) (Construct.isSome_skipSome htext)

/-- A document is covered by its pieces. -/
theorem covers_scan (s : List Char) : Covers (scan s) s :=
  Construct.covers_repeated fits_item advances_item isSome_item s

end Highlight.Html
