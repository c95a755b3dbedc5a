import Highlight.Proofs.Piece.Construct
import Highlight.Proofs.Text.Front
import Highlight.Xml.Scan

/-!
# Reading XML piece by piece

Every construct of XML fits the text it reads, and those that a loop repeats advance. An item of a
document is nothing only where none of the constructs is there.
-/

namespace Highlight.Xml

open Piece (Covers width)

theorem hasRoom_commentLength : Text.HasRoom 7 commentLength := by
  intro s
  cases hafter : Text.after? "<!--" s with
  | none => simp [commentLength, hafter]
  | some body =>
    cases hfind : Text.findLiteral? "--" body with
    | none => simp [commentLength, hafter, hfind]
    | some n =>
      by_cases hclose : Text.startsWith "-->" (body.drop n)
      · simp only [commentLength, hafter, hfind, hclose, if_true]
        have hopen := congrArg List.length (Text.after?_eq_some.1 hafter)
        have hle := Text.length_le_of_startsWith hclose
        rw [List.length_append] at hopen
        rw [List.length_drop] at hle
        change s.length = 4 + body.length at hopen
        change 3 ≤ body.length - n at hle
        omega
      · simp [commentLength, hafter, hfind, hclose]

theorem hasRoom_cdataLength : Text.HasRoom 12 cdataLength := by
  intro s
  cases hafter : Text.after? "<![CDATA[" s with
  | none => simp [cdataLength, hafter]
  | some body =>
    cases hfind : Text.findLiteral? "]]>" body with
    | none => simp [cdataLength, hafter, hfind]
    | some n =>
      simp only [cdataLength, hafter, hfind]
      have hopen := congrArg List.length (Text.after?_eq_some.1 hafter)
      have hle := Text.add_length_le_of_findLiteral? hfind
      rw [List.length_append] at hopen
      change s.length = 9 + body.length at hopen
      change n + 3 ≤ body.length at hle
      omega

theorem covers_comment {s : List Char} {ps : List (Piece Kind)} (h : comment s = some ps) :
    commentLength s ≠ 0 ∧ Covers ps (s.take (commentLength s)) := by
  unfold comment at h
  simp only at h
  split_ifs at h with hn
  obtain rfl := Option.some.inj h
  exact ⟨hn, Piece.covers_framed ..⟩

@[simp]
theorem fits_comment : comment.Fits :=
  Construct.fits_of_covers (fun _ _ ↦ covers_comment) fun _ ↦ rfl

theorem advances_comment : comment.Advances :=
  Construct.advances_of_covers (fun _ _ ↦ covers_comment) hasRoom_commentLength.length_nil

/-- The three pieces of a CDATA section cover it. -/
theorem covers_cdata {s : List Char} {ps : List (Piece Kind)} (h : cdata s = some ps) :
    cdataLength s ≠ 0 ∧ Covers ps (s.take (cdataLength s)) := by
  by_cases hn : cdataLength s = 0
  · simp [cdata, hn] at h
  · simp only [cdata, hn, if_false, Option.some.injEq] at h
    subst h
    have hroom := hasRoom_cdataLength.frame_le hn
    refine ⟨hn, ?_⟩
    generalize s.take (cdataLength s) = text
    have hclose : text.drop (cdataLength s - 3) = (text.drop 9).drop (cdataLength s - 12) := by
      rw [List.drop_drop]
      congr 1
      omega
    have hcovers := ((Piece.covers_token Kind.directive (text.take 9)).append
      (Piece.covers_hidden ((text.drop 9).take (cdataLength s - 12)))).append
        (Piece.covers_token Kind.directive (text.drop (cdataLength s - 3)))
    rw [List.append_assoc (text.take 9), hclose, List.take_append_drop, List.take_append_drop,
      ← hclose] at hcovers
    exact hcovers

@[simp]
theorem fits_cdata : cdata.Fits :=
  Construct.fits_of_covers (fun _ _ ↦ covers_cdata) fun _ ↦ rfl

theorem advances_cdata : cdata.Advances :=
  Construct.advances_of_covers (fun _ _ ↦ covers_cdata) hasRoom_cdataLength.length_nil

@[simp]
theorem fits_characterData : characterData.Fits := Construct.fits_skipSome _

theorem advances_characterData : characterData.Advances := Construct.advances_skipSome rfl

@[simp]
theorem fits_reference : reference.Fits := Construct.fits_measured _ _

theorem advances_reference : reference.Advances := Construct.advances_measured rfl

@[simp]
theorem fits_instructionBody : instructionBody.Fits := by
  apply Construct.fits_of_read fun _ ↦ rfl
  intro s ps h
  unfold instructionBody at h
  cases hfind : Text.findLiteral? "?>" s with
  | none => simp [hfind] at h
  | some n =>
    by_cases hbody : n ≠ 0 ∧ spaceLength s = 0
    · simp [hfind, hbody] at h
    · simp only [hfind, hbody, if_false, Option.some.injEq] at h
      subst h
      exact (Piece.fits_hidden _ _).2 (List.take_prefix _ _)

@[simp]
theorem fits_instruction : instruction.Fits := Construct.fits_seq (by simp)

theorem advances_instruction : instruction.Advances :=
  Construct.advances_seq List.mem_cons_self (Construct.advances_literal (by decide))

namespace PseudoAttribute

/-- The form of a pseudo-attribute that was read, as far as its opening quote, and what decides
whether it is terminated. -/
theorem read?_eq_some {keyword : String} {valueLength : List Char → Nat} {s : List Char}
    {info : PseudoAttribute} (h : read? keyword valueLength s = some info) :
    info.space ≠ [] ∧ (∀ c ∈ info.space, isSpace c) ∧ info.keyword = keyword.toList ∧
      (∀ c ∈ info.spaceBeforeEquals, isSpace c) ∧ (∀ c ∈ info.spaceAfterEquals, isSpace c) ∧
      Text.isQuote info.quote ∧
      ∃ rest, s = info.space ++ (info.keyword ++ (info.spaceBeforeEquals ++
          ('=' :: (info.spaceAfterEquals ++ info.quote :: rest)))) ∧
        info.value = rest.take (valueLength rest) ∧
        info.terminated =
          (!info.value.isEmpty && Text.startsIn (· == info.quote) (rest.drop info.value.length)) := by
  simp only [read?, bind, pure, Option.bind_none, ite_eq_iff, reduceCtorEq, and_false, false_or,
    Option.bind_eq_some_iff, Option.some.injEq, Text.after?_eq_some] at h
  obtain ⟨hspace, afterKeyword, hkeyword, afterEquals, hequals, quote, hquote, hisQuote, rfl⟩ := h
  obtain ⟨rest, hrest⟩ := List.head?_eq_some_iff.1 hquote
  dsimp only
  refine ⟨by simpa using hspace, Text.forall_mem_takeWhile, rfl, Text.forall_mem_takeWhile,
    Text.forall_mem_takeWhile, by simpa using hisQuote, rest, ?_, ?_, ?_⟩
  · rw [← hrest, Text.takeWhile_append_drop]
    change _ = _ ++ (_ ++ (_ ++ ("=".toList ++ afterEquals)))
    rw [← hequals, Text.takeWhile_append_drop, ← hkeyword, Text.takeWhile_append_drop]
  · rw [hrest, List.drop_one, List.tail_cons]
  · rw [hrest, List.drop_one, List.tail_cons]

/-- A terminated pseudo-attribute stands at the front of the text from which it was read. -/
theorem text_prefix_of_read? {keyword : String} {valueLength : List Char → Nat} {s : List Char}
    {info : PseudoAttribute} (h : read? keyword valueLength s = some info)
    (hterminated : info.terminated) : info.text <+: s := by
  obtain ⟨-, -, -, -, -, -, rest, rfl, hvalue, hend⟩ := read?_eq_some h
  rw [hterminated, eq_comm, Bool.and_eq_true] at hend
  have hvalueRest : info.value ++ rest.drop info.value.length = rest := by
    apply List.prefix_iff_eq_append.1
    rw [hvalue]
    exact List.take_prefix _ _
  generalize rest.drop info.value.length = behind at hend hvalueRest
  subst hvalueRest
  cases behind with
  | nil => simp at hend
  | cons c behind =>
    have hquote : c = info.quote := by simpa using hend.2
    subst hquote
    refine ⟨behind, ?_⟩
    simp [text]

theorem covers_pieces (info : PseudoAttribute) : Covers info.pieces info.text := by
  have hcovers := (Piece.covers_hidden (κ := Kind) info.space).append
    ((Piece.covers_shown Kind.markupAttr info.keyword).append
      ((Piece.covers_hidden info.spaceBeforeEquals).append
        ((Piece.covers_token Kind.symPunc ['=']).append
          ((Piece.covers_hidden info.spaceAfterEquals).append
            (Piece.covers_token Kind.string ([info.quote] ++ info.value ++ [info.quote]))))))
  simpa only [pieces, text, List.append_assoc] using hcovers

@[simp]
theorem fits_required (keyword : String) (valueLength : List Char → Nat) :
    (required keyword valueLength).Fits := by
  apply Construct.fits_of_read fun _ ↦ rfl
  intro s ps h
  obtain ⟨info, hread, hinfo⟩ := Option.bind_eq_some_iff.1 h
  by_cases hterminated : info.terminated
  · simp only [hterminated, if_true, Option.some.injEq] at hinfo
    subst hinfo
    exact (covers_pieces info).1.mono (text_prefix_of_read? hread hterminated)
  · simp [hterminated] at hinfo

/-- A pseudo-attribute covers its text up to the closing quote. -/
@[simp]
theorem fits_allowed (keyword : String) (valueLength : List Char → Nat) :
    (allowed keyword valueLength).Fits := by
  apply Construct.fits_of_read fun _ ↦ rfl
  intro s ps h
  unfold allowed at h
  cases hread : read? keyword valueLength s with
  | none =>
    simp only [hread, Option.some.injEq] at h
    subst h
    exact Piece.fits_nil s
  | some info =>
    by_cases hterminated : info.terminated
    · simp only [hread, hterminated, if_true, Option.some.injEq] at h
      subst h
      exact (covers_pieces info).1.mono (text_prefix_of_read? hread hterminated)
    · simp [hread, hterminated] at h

end PseudoAttribute

@[simp]
theorem fits_declaration : declaration.Fits := Construct.fits_seq (by simp)

@[simp]
theorem fits_spacedLiteral (length : List Char → Nat) : (spacedLiteral length).Fits :=
  Construct.fits_seq (by simp)

@[simp]
theorem fits_externalId : externalId.Fits := by
  apply Construct.fits_choose
  intro s
  simp only
  split_ifs
  · exact Construct.fits_seq (by simp)
  · exact Construct.fits_seq (by simp)
  · exact Construct.fits_seq (by simp)

@[simp]
theorem fits_parameterReference : parameterReference.Fits := Construct.fits_measured _ _

theorem advances_parameterReference : parameterReference.Advances :=
  Construct.advances_measured rfl

@[simp]
theorem fits_declarationPart : declarationPart.Fits := Construct.fits_firstOf (by simp)

theorem advances_declarationPart : declarationPart.Advances := by
  apply Construct.advances_firstOf
  simp only [List.forall_mem_cons]
  exact ⟨Construct.advances_measured rfl, advances_parameterReference,
    Construct.advances_skipSome rfl, List.forall_mem_nil _⟩

@[simp]
theorem fits_markupDeclaration : markupDeclaration.Fits := Construct.fits_seq (by simp)

theorem advances_markupDeclaration : markupDeclaration.Advances :=
  Construct.advances_seq List.mem_cons_self (Construct.advances_measured rfl)

@[simp]
theorem fits_subsetPart : subsetPart.Fits := Construct.fits_firstOf (by simp)

theorem advances_subsetPart : subsetPart.Advances := by
  apply Construct.advances_firstOf
  simp only [List.forall_mem_cons]
  exact ⟨Construct.advances_skipSome rfl, advances_comment,
    advances_instruction, advances_markupDeclaration,
    advances_parameterReference, List.forall_mem_nil _⟩

@[simp]
theorem fits_internalSubset : internalSubset.Fits :=
  Construct.fits_ifNext (Construct.fits_seq (by simp))

@[simp]
theorem fits_doctype : doctype.Fits := Construct.fits_seq (by simp)

/-- Nothing but references is set into an attribute value. -/
theorem reference_of_valueTurn {quote : Char} {s : List Char} {ps : List (Piece Kind)}
    (h : valueTurn quote s = .aside ps) : reference s = some ps := by
  unfold valueTurn at h
  split at h
  · simp at h
  · split_ifs at h
    split at h
    · next pieces hreference =>
      obtain rfl := Turn.aside.inj h
      exact hreference
    · simp at h

theorem fits_valueTurn (quote : Char) : Turn.Fits (valueTurn quote) :=
  fun _ _ h ↦ fits_reference.read _ _ (reference_of_valueTurn h)

theorem advances_valueTurn (quote : Char) : Turn.Advances (valueTurn quote) :=
  fun _ _ h ↦ advances_reference _ _ (reference_of_valueTurn h)

@[simp]
theorem fits_attributeValue : attributeValue.Fits :=
  Construct.fits_choose fun _ ↦ Construct.fits_onlyIf (Construct.fits_parts (fits_valueTurn _))

@[simp]
theorem fits_tagAttribute : tagAttribute.Fits := Construct.fits_seq (by simp)

@[simp]
theorem fits_spacedAttribute : spacedAttribute.Fits := Construct.fits_seq (by simp)

theorem advances_spacedAttribute : spacedAttribute.Advances :=
  Construct.advances_seq List.mem_cons_self (Construct.advances_skipSome rfl)

@[simp]
theorem fits_startTag : startTag.Fits :=
  Construct.fits_seq (by simp [Construct.fits_firstOf])

@[simp]
theorem fits_endTag : endTag.Fits := Construct.fits_seq (by simp)

/-! ## Documents -/

@[simp]
theorem fits_item : item.Fits := Construct.fits_firstOf (by simp)

/-- Every item begins with something that is not empty. -/
theorem advances_item : item.Advances := by
  have hopening {label : Kind} {lit : String} {cs : List (Construct Kind)}
      (hlit : lit.toList ≠ []) : (Construct.seq (.literal label lit :: cs)).Advances :=
    Construct.advances_seq List.mem_cons_self (Construct.advances_literal hlit)
  apply Construct.advances_firstOf
  simp only [List.forall_mem_cons]
  exact ⟨advances_comment, advances_cdata, advances_instruction, hopening (by decide),
    hopening (by decide), hopening (by decide), advances_reference, advances_characterData,
    List.forall_mem_nil _⟩

theorem fits_document : document.Fits := Construct.fits_seq (by simp [Construct.fits_optional])

/-- A document is read as one declaration at most and then item by item. -/
theorem scan_eq (s : List Char) :
    ∃ prolog, Construct.optional declaration s = some prolog ∧
      scan s = prolog ++ (item.repeated (s.drop (width prolog)) ++
        Piece.withdrawal (item.trail ((s.drop (width prolog)).drop
          (width (item.repeated (s.drop (width prolog))))))) := by
  refine ⟨_, rfl, ?_⟩
  simp [scan, document, Construct.seq, Construct.readAll, Construct.optional, Construct.many]

/-- What is left of a document begins with no item. -/
theorem scan_ends (s : List Char) :
    s.drop (width (scan s)) = [] ∨ item (s.drop (width (scan s))) = none := by
  obtain ⟨prolog, -, hscan⟩ := scan_eq s
  rw [hscan, Piece.width_append, Piece.width_append, Piece.width_withdrawal, Nat.add_zero,
    ← List.drop_drop]
  exact .inr (Construct.repeated_ends advances_item fits_item _)

theorem fits_scan (s : List Char) : Piece.Fits (scan s) s := by
  unfold scan
  cases hdocument : document s with
  | none => exact Piece.fits_nil s
  | some ps => exact fits_document.read s ps hdocument

end Highlight.Xml
