import Highlight.Proofs.Json.Words
import Highlight.Proofs.Lengths

/-!
# Marks around an inside

What is measured as one stretch may be reported in parts: marks at its ends and what stands between
them. The marks are together as long as what is taken away from the measured length, so the inside
is exactly the rest of it. Whatever is reported whole has no marks, and nothing is taken away from
its length.
-/

namespace Highlight

open Piece (Covers width)

variable {κ : Type} {entries : List (Nat × (List Char → Nat))} {length : List Char → Nat}
  {s : List Char} {ps : List (Piece κ)}

/-- The pieces are marks and an inside between them. The marks are as long as what one of the entries
takes away, and with the inside they are all that its length measures. -/
def Piece.CutBy (entries : List (Nat × (List Char → Nat))) (s : List Char)
    (ps : List (Piece κ)) : Prop :=
  ∃ entry ∈ entries, ∃ front inside behind, ps = front ++ inside ++ behind ∧
    width front + width behind = entry.1 ∧ width inside + entry.1 = entry.2 s

/-- Whatever the construct reads is cut by one of the entries. -/
def Construct.CutBy (entries : List (Nat × (List Char → Nat))) (c : Construct κ) : Prop :=
  ∀ s ps, c s = some ps → Piece.CutBy entries s ps

namespace Piece

/-- What covers all that is measured has no marks. -/
theorem Covers.cutBy (h : Covers ps (s.take (length s))) (hmem : (0, length) ∈ entries)
    (hle : length s ≤ s.length) : CutBy entries s ps := by
  refine ⟨_, hmem, [], ps, [], (List.append_nil ps).symm, rfl, ?_⟩
  rw [h.2, List.length_take, Nat.min_eq_left hle, Nat.add_zero]

/-- A stretch is cut by its length if the numbers of characters that frame it are taken away. -/
theorem cutBy_framed {frame inner : κ} (opening closing : Nat)
    (hmem : (opening + closing, length) ∈ entries)
    (hroom : Text.HasRoom (opening + closing) length) (hs : length s ≠ 0) :
    CutBy entries s (framed frame inner opening closing (s.take (length s))) := by
  have hle := hroom.le_length s
  have hframe := hroom.frame_le hs
  refine ⟨_, hmem, _, _, _, rfl, ?_, ?_⟩ <;>
  · simp only [width_shown, List.length_take, List.length_drop]
    omega

theorem CutBy.withdrawal_append (reported : List (Piece κ)) (h : CutBy entries s ps) :
    CutBy entries s (withdrawal reported ++ ps) := by
  obtain ⟨entry, hmem, front, inside, behind, rfl, hmarks, hinside⟩ := h
  refine ⟨entry, hmem, withdrawal reported ++ front, inside, behind, ?_, ?_, hinside⟩
  · simp only [List.append_assoc]
  · rw [width_append, width_withdrawal, Nat.zero_add, hmarks]

end Piece

namespace Construct

/-- A construct that covers what is measured has no marks. -/
theorem CutBy.of_covers {c : Construct κ} (hmem : (0, length) ∈ entries)
    (hroom : ∀ entry ∈ entries, Text.HasRoom entry.1 entry.2)
    (hcovers : ∀ s ps, c s = some ps → Covers ps (s.take (length s))) : c.CutBy entries :=
  fun s ps h ↦ (hcovers s ps h).cutBy hmem ((hroom _ hmem).le_length s)

theorem CutBy.measured {label : κ} (hroom : ∀ entry ∈ entries, Text.HasRoom entry.1 entry.2)
    (hmem : (0, length) ∈ entries) : (measured label length).CutBy entries := by
  apply CutBy.of_covers hmem hroom
  intro s ps h
  obtain ⟨-, rfl⟩ := measured_eq_some.1 h
  exact Piece.covers_token _ _

theorem CutBy.skip (hroom : ∀ entry ∈ entries, Text.HasRoom entry.1 entry.2)
    (hmem : (0, length) ∈ entries) : (skip length : Construct κ).CutBy entries := by
  apply CutBy.of_covers hmem hroom
  intro s ps h
  obtain rfl := Option.some.inj h
  exact Piece.covers_hidden _

theorem CutBy.skipSome (hroom : ∀ entry ∈ entries, Text.HasRoom entry.1 entry.2)
    (hmem : (0, length) ∈ entries) : (skipSome length : Construct κ).CutBy entries := by
  apply CutBy.of_covers hmem hroom
  intro s ps h
  obtain ⟨-, rfl⟩ := skipSome_eq_some.1 h
  exact Piece.covers_gap _

/-- What was tried before and taken back covers nothing. -/
theorem CutBy.firstOf {cs : List (Construct κ)} (h : ∀ c ∈ cs, c.CutBy entries) :
    (firstOf cs).CutBy entries := by
  intro s
  change ∀ ps, readFirst cs s = some ps → _
  induction cs with
  | nil => simp [readFirst]
  | cons c cs ih =>
    intro ps hps
    rw [readFirst] at hps
    split at hps
    · next qs hqs =>
      obtain rfl := Option.some.inj hps
      exact h c List.mem_cons_self s qs hqs
    · obtain ⟨qs, hqs, rfl⟩ := Option.map_eq_some_iff.1 hps
      exact (ih (fun c hc ↦ h c (List.mem_cons_of_mem _ hc)) qs hqs).withdrawal_append _

end Construct

namespace Comment

theorem cutBy_line (hmem : (2, length) ∈ entries) (hroom : Text.HasRoom 2 length) :
    (line length).CutBy entries := by
  intro s ps h
  simp only [line] at h
  split_ifs at h with hs
  obtain rfl := Option.some.inj h
  exact Piece.cutBy_framed 2 0 hmem hroom hs

/-- From a block comment the closing mark is only taken away where it is there. -/
theorem cutBy_block (hopen : (2, fun s ↦ (blockExtent s).length) ∈ entries)
    (hclosed : (4, fun s ↦ if (blockExtent s).terminated then (blockExtent s).length else 0) ∈
      entries) : block.CutBy entries := by
  intro s ps h
  simp only [block] at h
  split_ifs at h with hs
  obtain rfl := Option.some.inj h
  cases hterminated : (blockExtent s).terminated with
  | false => exact Piece.cutBy_framed 2 0 hopen hasRoom_blockExtent hs
  | true =>
    have hlength : (if (blockExtent s).terminated then (blockExtent s).length else 0) ≠ 0 := by
      rwa [hterminated, if_pos rfl]
    have hcut : Piece.CutBy entries s (Piece.framed Kind.commentDelimiter .comment 2 2 _) :=
      Piece.cutBy_framed 2 2 hclosed hasRoom_closedBlock hlength
    rwa [hterminated, if_pos rfl] at hcut

end Comment

namespace Xml

theorem cutBy_comment (hmem : (7, commentLength) ∈ entries) : comment.CutBy entries := by
  intro s ps h
  simp only [comment] at h
  split_ifs at h with hs
  obtain rfl := Option.some.inj h
  exact Piece.cutBy_framed 4 3 hmem hasRoom_commentLength hs

theorem cutBy_cdata (hmem : (12, cdataLength) ∈ entries) : cdata.CutBy entries := by
  intro s ps h
  simp only [cdata] at h
  split_ifs at h with hs
  obtain rfl := Option.some.inj h
  have hle := hasRoom_cdataLength.le_length s
  have hframe := hasRoom_cdataLength.frame_le hs
  refine ⟨_, hmem, _, _, _, rfl, ?_, ?_⟩
  · simp only [Piece.width_cons, Piece.width_nil, Piece.text, List.length_take, List.length_drop]
    omega
  · simp only [Piece.width_hidden, List.length_take, List.length_drop]
    omega

/-- The value of a pseudo-attribute is what was measured behind its quote. -/
theorem cutBy_value {keyword : String} {length : List Char → Nat} {s : List Char}
    {info : PseudoAttribute} (hmem : (0, length) ∈ lengths)
    (h : PseudoAttribute.read? keyword length s = some info) :
    ∃ rest, rest <:+ s ∧ Piece.CutBy lengths rest (Piece.shown Kind.string info.value) := by
  obtain ⟨-, -, -, -, -, -, rest, rfl, hvalue, -⟩ := PseudoAttribute.read?_eq_some h
  refine ⟨rest, ⟨info.space ++ info.keyword ++ info.spaceBeforeEquals ++ ['='] ++
    info.spaceAfterEquals ++ [info.quote], by simp⟩, ?_⟩
  apply Piece.Covers.cutBy _ hmem ((hasRoom_lengths _ hmem).le_length rest)
  rw [hvalue]
  exact Piece.covers_shown _ _

/-- What is measured in XML before it is reported. -/
def cuts : List (Construct Kind) := [
  comment, cdata, reference, characterData, parameterReference, .skipSome spaceLength,
  .measured .markupTag nameLength, .measured .string systemLiteralLength,
  .measured .string pubidLiteralLength, .measured .directive declarationMarkLength]

theorem cutBy_lengths : ∀ c ∈ cuts, c.CutBy lengths := by
  simp only [cuts, List.forall_mem_cons]
  refine ⟨cutBy_comment ?_, cutBy_cdata ?_, .measured hasRoom_lengths ?_,
    .skipSome hasRoom_lengths ?_, .measured hasRoom_lengths ?_, .skipSome hasRoom_lengths ?_,
    .measured hasRoom_lengths ?_, .measured hasRoom_lengths ?_, .measured hasRoom_lengths ?_,
    .measured hasRoom_lengths ?_, List.forall_mem_nil _⟩
  all_goals simp [lengths]

end Xml

namespace Html

/-- The closing mark of a comment is only taken away where it is there, and a comment that its own
opening closes is reported whole. -/
theorem cutBy_comment {s : List Char} {ps : List (Piece Kind)} (h : comment s = some ps)
    (habrupt : (commentExtent s).abrupt = false) : Piece.CutBy lengths s ps := by
  have hopen : (4, fun s ↦ (commentExtent s).length) ∈ lengths := by simp [lengths]
  have hclosed : (7, fun s ↦ if (commentExtent s).terminated && !(commentExtent s).abrupt then
      (commentExtent s).length else 0) ∈ lengths := by simp [lengths]
  simp only [comment, habrupt, Bool.false_eq_true, if_false] at h
  split_ifs at h with hs hterminated
  · obtain rfl := Option.some.inj h
    have hboth : (commentExtent s).terminated && !(commentExtent s).abrupt := by
      rw [hterminated, habrupt, Bool.not_false, Bool.and_true]
    have hlength : (if (commentExtent s).terminated && !(commentExtent s).abrupt then
        (commentExtent s).length else 0) ≠ 0 := by
      rwa [if_pos hboth]
    have hcut : Piece.CutBy lengths s (Piece.framed Kind.commentDelimiter .comment 4 3 _) :=
      Piece.cutBy_framed 4 3 hclosed hasRoom_closedComment hlength
    rwa [if_pos hboth] at hcut
  · obtain rfl := Option.some.inj h
    exact Piece.cutBy_framed 4 0 hopen hasRoom_commentExtent hs

/-- The inside of a declaration is read up to its closing bracket. -/
theorem cutBy_doctype (hmem : (10, doctypeLength) ∈ entries) : doctype.CutBy entries := by
  intro s ps h
  simp only [doctype] at h
  split_ifs at h with hs
  obtain rfl := Option.some.inj h
  have hle := hasRoom_doctypeLength.le_length s
  have hframe := hasRoom_doctypeLength.frame_le hs
  have hopening : doctypeOpening.length = 9 := rfl
  refine ⟨_, hmem, _, _, _, rfl, ?_, ?_⟩
  · simp only [Piece.width_cons, Piece.width_nil, Piece.text, List.length_take, hopening,
      List.length_singleton]
    omega
  · rw [(covers_doctypeInside _).2, List.length_take, List.length_drop, hopening]
    simp only
    omega

theorem cutBy_attributeValue (hroom : ∀ entry ∈ entries, Text.HasRoom entry.1 entry.2)
    (hquoted : (0, Text.quotedLength) ∈ entries) (hunquoted : (0, unquotedLength) ∈ entries) :
    attributeValue.CutBy entries := by
  intro s ps h
  simp only [attributeValue] at h
  split_ifs at h
  · exact (covers_valueParts h).cutBy hquoted ((hroom _ hquoted).le_length s)
  · exact (covers_valueParts h).cutBy hunquoted ((hroom _ hunquoted).le_length s)

/-- What is measured in HTML before it is reported, but for comments. -/
def cuts : List (Construct Kind) := [
  doctype, Xml.cdata, attributeValue, rawTextPart, .skipSome textLength, .skipSome spaceLength,
  .measured .markupTag tagNameLength, .measured .markupAttr attributeNameLength]

theorem cutBy_lengths : ∀ c ∈ cuts, c.CutBy lengths := by
  have hraw : rawTextPart.CutBy lengths := by
    apply Construct.CutBy.firstOf
    simp only [List.forall_mem_cons]
    refine ⟨.measured hasRoom_lengths ?_, .skipSome hasRoom_lengths ?_, List.forall_mem_nil _⟩
    all_goals simp [lengths]
  simp only [cuts, List.forall_mem_cons]
  refine ⟨cutBy_doctype ?_, Xml.cutBy_cdata ?_, cutBy_attributeValue hasRoom_lengths ?_ ?_, hraw,
    .skipSome hasRoom_lengths ?_, .skipSome hasRoom_lengths ?_, .measured hasRoom_lengths ?_,
    .measured hasRoom_lengths ?_, List.forall_mem_nil _⟩
  all_goals simp [lengths]

end Html

variable [Text.IdentifierClasses]

namespace CFamily

theorem cutBy_escape {quote : Char} {s : List Char} {ps : List (Piece Kind)}
    (h : literalTurn quote s = .aside ps) : Piece.CutBy lengths s ps := by
  obtain ⟨rest, -, rfl⟩ := escape_of_literalTurn h
  exact (Piece.covers_token _ _).cutBy (by simp [lengths]) (escapeLength_le s)

/-- A literal opens with its mark and its quote. -/
theorem exists_mark_of_literal {s : List Char} {ps : List (Piece Kind)} (h : literal s = some ps) :
    ∃ entry ∈ lengths, ∃ quote rest, s = s.take (entry.2 s) ++ quote :: rest ∧
      Construct.parts .string (entry.2 s + 1) (literalTurn quote) s = some ps := by
  have hmem : (0, encodingMarkLength) ∈ lengths := by simp [lengths]
  simp only [literal] at h
  split at h
  · next quote rest hrest =>
    split_ifs at h
    refine ⟨_, hmem, quote, rest, ?_, h⟩
    rw [← hrest, List.take_append_drop]
  · cases h

theorem cutBy_word (dialect : Dialect) (strict : Bool) : (word dialect strict).CutBy lengths := by
  have hmem : (0, identifierLength) ∈ lengths := by simp [lengths]
  apply Construct.CutBy.of_covers hmem hasRoom_lengths
  intro s ps h
  simp only [word] at h
  split_ifs at h
  obtain rfl := Option.some.inj h
  exact Piece.covers_token _ _

/-- A line splice is passed over as a whole. -/
theorem cutBy_splice {dialect : Dialect} {strict atLineStart next : Bool} {s : List Char}
    {ps : List (Piece Kind)} (h : item dialect strict atLineStart s = some (ps, next))
    (hspace : s.takeWhile isSpace = []) (hsplice : spliceLength s ≠ 0) :
    Piece.CutBy lengths s ps := by
  have hmem : (0, spliceLength) ∈ lengths := by simp [lengths]
  simp only [item, hspace, List.isEmpty_nil, Bool.not_true, Bool.false_eq_true, if_false,
    if_pos hsplice] at h
  obtain ⟨rfl, -⟩ := Prod.mk.inj (Option.some.inj h)
  exact (Piece.covers_gap _).cutBy hmem (spliceLength_le s)

def cuts (dialect : Dialect) (strict : Bool) : List (Construct Kind) := [
  comment, rawString, word dialect strict, .measured .number numberLength, .skip blankLength,
  .measured .string headerLength, .measured .directive identifierLength]

theorem cutBy_lengths (dialect : Dialect) (strict : Bool) :
    ∀ c ∈ cuts dialect strict, c.CutBy lengths := by
  have hcomment : comment.CutBy lengths := by
    apply Construct.CutBy.firstOf
    simp only [List.forall_mem_cons]
    refine ⟨Comment.cutBy_line ?_ hasRoom_lineCommentLength, Comment.cutBy_block ?_ ?_,
      List.forall_mem_nil _⟩
    all_goals simp [lengths]
  simp only [cuts, List.forall_mem_cons]
  refine ⟨hcomment, .measured hasRoom_lengths ?_, cutBy_word dialect strict,
    .measured hasRoom_lengths ?_, .skip hasRoom_lengths ?_, .measured hasRoom_lengths ?_,
    .measured hasRoom_lengths ?_, List.forall_mem_nil _⟩
  all_goals simp [lengths]

end CFamily

namespace JavaScript

omit [Text.IdentifierClasses] in
theorem cutBy_comment (hline : (2, lineCommentLength) ∈ entries)
    (hopen : (2, fun s ↦ (Comment.blockExtent s).length) ∈ entries)
    (hclosed : (4, closedCommentLength) ∈ entries) : comment.CutBy entries := by
  apply Construct.CutBy.firstOf
  simp only [List.forall_mem_cons]
  exact ⟨Comment.cutBy_line hline hasRoom_lineCommentLength, Comment.cutBy_block hopen hclosed,
    List.forall_mem_nil _⟩

theorem cutBy_number : number.CutBy lengths := by
  have hmem : (0, fun s ↦ (numericLiteral s).length) ∈ lengths := by simp [lengths]
  exact .of_covers hmem hasRoom_lengths fun _ _ h ↦ (covers_number h).2

theorem cutBy_escapePieces (s : List Char) : Piece.CutBy lengths s (escapePieces s) := by
  have hmem : (0, fun s ↦ (escape s).length) ∈ lengths := by simp [lengths]
  exact (Piece.covers_token _ _).cutBy hmem (escape_length_le s)

theorem cutBy_word {member : Bool} {s : List Char} {ps : List (Piece Kind)} {next : Position}
    (h : word member s = some (ps, next)) : Piece.CutBy lengths s ps := by
  obtain ⟨kind, -, rfl⟩ := word_eq_some h
  exact (Piece.covers_token _ _).cutBy (by simp [lengths]) (Text.wordLength_le s)

theorem cutBy_operator {expression : Bool} {s : List Char} {ps : List (Piece Kind)}
    {next : Position} (h : operator expression s = some (ps, next)) :
    Piece.CutBy lengths s ps := by
  obtain ⟨op, hop, rfl⟩ := operator_eq_some h
  have hmem : (0, operatorLength) ∈ lengths := by simp [lengths]
  have hlength : operatorLength s = op.toList.length := by
    rw [operatorLength, hop, String.length_toList]
  have htake : op.toList = s.take (operatorLength s) := by
    rw [hlength]
    exact List.prefix_iff_eq_take.1 (prefix_of_operator? hop).2
  apply Piece.Covers.cutBy _ hmem (operatorLength_le s)
  rw [← htake]
  exact Piece.covers_token _ _

/-- From code in curly brackets both brackets are taken away. -/
theorem cutBy_container {embed : List Char → List (Piece Kind)}
    (hembed : ∀ s, Covers (embed s) s) {s : List Char} (hs : bracedLength s ≠ 0) :
    Piece.CutBy lengths s (container embed (s.take (bracedLength s))) := by
  have hle := hasRoom_bracedLength.le_length s
  have hframe := hasRoom_bracedLength.frame_le hs
  refine ⟨(2, bracedLength), by simp [lengths], _, _, _, rfl, ?_, ?_⟩
  · simp only [Piece.width_cons, Piece.width_nil, Piece.text, Piece.width_shown, List.length_take,
      List.length_drop]
    omega
  · simp only [(hembed _).2, List.length_take, List.length_drop]
    omega

/-- A reference between tags is reported as a whole. -/
theorem cutBy_reference {embed : List Char → List (Piece Kind)} {depth next : Nat} {s : List Char}
    {ps : List (Piece Kind)} (h : child embed depth s = some (ps, next))
    (hand : Text.startsWith "&" s) (hs : Html.referenceLength s ≠ 0) :
    Piece.CutBy lengths s ps := by
  have hmem : (0, Html.referenceLength) ∈ lengths := by simp [lengths]
  obtain ⟨rest, hrest⟩ := Text.startsWith_iff.1 hand
  obtain rfl : s = '&' :: rest := hrest.symm
  have hbrace : Text.startsWith "\x7b" ('&' :: rest) = false :=
    Text.startsWith_cons_eq_false rfl (by decide) rest
  have hangle : Text.startsWith "<" ('&' :: rest) = false :=
    Text.startsWith_cons_eq_false rfl (by decide) rest
  simp only [child, hbrace, hangle, hand, hs, Bool.false_eq_true, if_false, if_true] at h
  split_ifs at h
  obtain ⟨rfl, -⟩ := Prod.mk.inj (Option.some.inj h)
  exact (Piece.covers_token _ _).cutBy hmem (Html.referenceLength_le _)

/-- What is measured in tags before it is reported. Their code is cut where it is shown. -/
def tagCuts : List (Construct TagPart) := [
  tagName, .measured .attributeName attributeNameLength, .measured .string Text.quotedLength]

theorem cutBy_parts : ∀ c ∈ tagCuts, c.CutBy lengths := by
  simp only [tagCuts, List.forall_mem_cons]
  refine ⟨.measured hasRoom_lengths ?_, .measured hasRoom_lengths ?_, .measured hasRoom_lengths ?_,
    List.forall_mem_nil _⟩
  all_goals simp [lengths]

def cuts : List (Construct Kind) := [
  Comment.line hashbangLength, comment, number, regex, .measured .identifier privateNameLength,
  .skipSome (Text.spanLength isSpace)]

theorem cutBy_lengths : ∀ c ∈ cuts, c.CutBy lengths := by
  simp only [cuts, List.forall_mem_cons]
  refine ⟨Comment.cutBy_line ?_ hasRoom_hashbangLength, cutBy_comment ?_ ?_ ?_, cutBy_number,
    .measured hasRoom_lengths ?_, .measured hasRoom_lengths ?_, .skipSome hasRoom_lengths ?_,
    List.forall_mem_nil _⟩
  all_goals simp [lengths]

end JavaScript

namespace Json

def cuts : List (Construct Kind) := [
  JavaScript.comment, literalName, .measured .number numberLength, .measured .error junkLength,
  .skipSome (Text.spanLength isSpace)]

/-- A string is read once more, up to the end that was found for it. -/
theorem covers_of_string {s : List Char} {ps : List (Piece Kind)} (h : string s = some ps) :
    ∃ entry ∈ lengths, 0 < entry.1 ∧ entry.1 ≤ entry.2 s ∧ Covers ps (s.take (entry.2 s)) := by
  have hmem : (1, fun s ↦ (stringExtent s).length) ∈ lengths := by simp [lengths]
  obtain ⟨hs, hcovers⟩ := covers_string h
  exact ⟨_, hmem, Nat.one_pos, hasRoom_stringExtent.frame_le hs, hcovers⟩

/-- An escape is taken as a whole when the string is read once more. -/
theorem cutBy_escape {s : List Char} (hs : escapeLength s ≠ 0) (kind : Kind) (part : List Char)
    (left : Nat) :
    ∃ escape, Piece.CutBy lengths s [escape] ∧
      stringPartsFrom kind [] part (escapeLength s + left) s = Piece.shown kind part.reverse ++
        escape :: stringPartsFrom kind [] [] left (s.drop (escapeLength s)) := by
  have hmem : (0, escapeLength) ∈ lengths := by simp [lengths]
  obtain ⟨escape, rest, rfl, hescape, hlength⟩ := escape_of_escapeLength hs
  have hcut : Piece.CutBy lengths (escape ++ rest)
      [.token Kind.escape ((escape ++ rest).take (escapeLength (escape ++ rest)))] :=
    (Piece.covers_token _ _).cutBy hmem (escapeLength_le _)
  rw [hlength, List.take_left] at hcut
  rw [hlength, List.drop_left]
  exact ⟨_, hcut, stringPartsFrom_escape kind part hescape left rest⟩

theorem cutBy_literalName : literalName.CutBy lengths := by
  have hmem : (0, fun s ↦ ((literalName? s).map Prod.fst).getD 0) ∈ lengths := by simp [lengths]
  apply Construct.CutBy.of_covers hmem hasRoom_lengths
  intro s ps h
  obtain ⟨n, kind, hname, rfl⟩ := literalName_eq_some h
  simp only [hname, Option.map_some, Option.getD_some]
  exact Piece.covers_token _ _

theorem cutBy_lengths : ∀ c ∈ cuts, c.CutBy lengths := by
  simp only [cuts, List.forall_mem_cons]
  refine ⟨JavaScript.cutBy_comment ?_ ?_ ?_, cutBy_literalName, .measured hasRoom_lengths ?_,
    .measured hasRoom_lengths ?_, .skipSome hasRoom_lengths ?_, List.forall_mem_nil _⟩
  all_goals simp [lengths]

end Json

def Language.cuts (strict : Bool) : Language → List (Construct Kind)
  | xml => Xml.cuts
  | html => Html.cuts
  | c => CFamily.cuts .c strict
  | cpp => CFamily.cuts .cpp strict
  | javaScript => JavaScript.cuts
  | json => Json.cuts

/-- Every construct that is measured before it is reported is cut by a length of its language. -/
theorem Language.cutBy_lengths (language : Language) (strict : Bool) :
    ∀ c ∈ language.cuts strict, c.CutBy language.lengths := by
  cases language with
  | xml => exact Xml.cutBy_lengths
  | html => exact Html.cutBy_lengths
  | c | cpp => exact CFamily.cutBy_lengths _ strict
  | javaScript => exact JavaScript.cutBy_lengths
  | json => exact Json.cutBy_lengths

/-- Where a front of the text is measured first and reported in parts afterwards, the parts are what
one of the lengths of the language measures, marks and inside. -/
structure LengthsCut : Prop where
  construct : ∀ (language : Language) strict, ∀ c ∈ language.cuts strict,
    c.CutBy language.lengths
  value : ∀ length ∈ [Xml.versionLength, Xml.encodingLength, Xml.standaloneLength],
    ∀ keyword s info, Xml.PseudoAttribute.read? keyword length s = some info →
      ∃ rest, rest <:+ s ∧ Piece.CutBy Xml.lengths rest (Piece.shown Kind.string info.value)
  htmlComment : ∀ s ps, Html.comment s = some ps → (Html.commentExtent s).abrupt = false →
    Piece.CutBy Html.lengths s ps
  splice : ∀ dialect strict atLineStart s ps next,
    CFamily.item dialect strict atLineStart s = some (ps, next) →
      s.takeWhile CFamily.isSpace = [] → CFamily.spliceLength s ≠ 0 →
        Piece.CutBy CFamily.lengths s ps
  literalMark : ∀ s ps, CFamily.literal s = some ps → ∃ entry ∈ CFamily.lengths, ∃ quote rest,
    s = s.take (entry.2 s) ++ quote :: rest ∧
      Construct.parts .string (entry.2 s + 1) (CFamily.literalTurn quote) s = some ps
  escape : ∀ quote s ps, CFamily.literalTurn quote s = .aside ps → Piece.CutBy CFamily.lengths s ps
  scriptEscape : ∀ s, Piece.CutBy JavaScript.lengths s (JavaScript.escapePieces s)
  word : ∀ member s ps next, JavaScript.word member s = some (ps, next) →
    Piece.CutBy JavaScript.lengths s ps
  operator : ∀ expression s ps next, JavaScript.operator expression s = some (ps, next) →
    Piece.CutBy JavaScript.lengths s ps
  tagPart : ∀ c ∈ JavaScript.tagCuts, c.CutBy JavaScript.lengths
  reference : ∀ embed depth s ps next, JavaScript.child embed depth s = some (ps, next) →
    Text.startsWith "&" s → Html.referenceLength s ≠ 0 → Piece.CutBy JavaScript.lengths s ps
  container : ∀ strict levels s, JavaScript.bracedLength s ≠ 0 →
    Piece.CutBy JavaScript.lengths s
      (JavaScript.container (JavaScript.scanLevels strict levels)
        (s.take (JavaScript.bracedLength s)))
  dataString : ∀ s ps, Json.string s = some ps → ∃ entry ∈ Json.lengths,
    0 < entry.1 ∧ entry.1 ≤ entry.2 s ∧ Covers ps (s.take (entry.2 s))
  dataEscape : ∀ s, Json.escapeLength s ≠ 0 → ∀ kind part left, ∃ escape,
    Piece.CutBy Json.lengths s [escape] ∧
      Json.stringPartsFrom kind [] part (Json.escapeLength s + left) s =
        Piece.shown kind part.reverse ++
          escape :: Json.stringPartsFrom kind [] [] left (s.drop (Json.escapeLength s))

theorem lengthsCut : LengthsCut where
  construct := Language.cutBy_lengths
  value := by
    simp only [List.forall_mem_cons]
    refine ⟨fun _ _ _ ↦ Xml.cutBy_value ?_, fun _ _ _ ↦ Xml.cutBy_value ?_,
      fun _ _ _ ↦ Xml.cutBy_value ?_, List.forall_mem_nil _⟩
    all_goals simp [Xml.lengths]
  htmlComment _ _ := Html.cutBy_comment
  splice _ _ _ _ _ _ := CFamily.cutBy_splice
  literalMark _ _ := CFamily.exists_mark_of_literal
  escape _ _ _ := CFamily.cutBy_escape
  scriptEscape := JavaScript.cutBy_escapePieces
  word _ _ _ _ := JavaScript.cutBy_word
  operator _ _ _ _ := JavaScript.cutBy_operator
  tagPart := JavaScript.cutBy_parts
  reference _ _ _ _ _ := JavaScript.cutBy_reference
  container strict levels _ := JavaScript.cutBy_container (JavaScript.covers_scanLevels strict levels)
  dataString _ _ := Json.covers_of_string
  dataEscape _ := Json.cutBy_escape

end Highlight
