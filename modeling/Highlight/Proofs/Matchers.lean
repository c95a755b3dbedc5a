import Highlight.Proofs.CFamily.Steady
import Highlight.Proofs.JavaScript.Settled
import Highlight.Proofs.Json.Steady
import Highlight.Proofs.Markup.Steady

/-!
# Matchers that delimit themselves

What a matcher says of a text can be said of the part that it matched, without the text behind it:
that part is a front of the text that ends between two characters, and on it alone the matcher says
the same again, in all that it tells. Scanners depend on that where they cut a stretch out first and
read it afterwards. Only an encoding mark is told by the quote behind it.
-/

namespace Highlight

variable [Text.IdentifierClasses]

/-- The lengths that tell all there is to tell of a match. -/
def matchedLengths : List (List Char → Nat) := [
  Xml.spaceLength, Xml.nameLength, Xml.commentLength, Xml.cdataLength, Xml.referenceLength,
  Xml.versionLength, Xml.encodingLength, Xml.standaloneLength, Xml.systemLiteralLength,
  Xml.pubidLiteralLength,
  Html.referenceLength, Html.tagNameLength, Html.attributeNameLength, Html.unquotedLength,
  Html.doctypeLength,
  CFamily.lineCommentLength, CFamily.numberLength, CFamily.identifierLength, CFamily.escapeLength,
  CFamily.rawStringLength, CFamily.operatorLength,
  JavaScript.lineCommentLength, JavaScript.hashbangLength, JavaScript.identifierLength,
  JavaScript.regexLength, JavaScript.operatorLength, JavaScript.bracedLength,
  Json.numberLength, Json.escapeLength]

/-- Each length is steady and lies within the text. -/
theorem selfDelimiting_matchedLengths :
    ∀ length ∈ matchedLengths, Text.SelfDelimiting id length := by
  have hspan (p : Char → Bool) : Text.SelfDelimiting id (Text.spanLength p) :=
    (Text.greedy_spanLength p).selfDelimiting
  have hword (first next : Char → Bool) : Text.SelfDelimiting id (Text.wordLength first next) :=
    (Text.greedy_wordLength first next).selfDelimiting
  simp only [matchedLengths, List.forall_mem_cons]
  refine ⟨hspan _, hword _ _, ?_, ?_, ?_, ?_, hword _ _, ?_, ?_, ?_, ?_, hword _ _, hspan _,
    hspan _, ?_, ?_, ?_, hword _ _, ?_, ?_, ?_, ?_, ?_, hword _ _, ?_, ?_, ?_, ?_, ?_,
    List.forall_mem_nil _⟩
  · exact Xml.steady_commentLength.selfDelimiting Xml.hasRoom_commentLength.le_length
  · exact Xml.steady_cdataLength.selfDelimiting Xml.hasRoom_cdataLength.le_length
  · exact Xml.steady_referenceLength.selfDelimiting Xml.referenceLength_le
  · exact Xml.steady_versionLength.selfDelimiting Xml.versionLength_le
  · exact Xml.steady_standaloneLength.selfDelimiting Xml.standaloneLength_le
  · exact Xml.steady_systemLiteralLength.selfDelimiting Text.quotedLength_le
  · exact Xml.steady_pubidLiteralLength.selfDelimiting Xml.pubidLiteralLength_le
  · exact Html.steady_referenceLength.selfDelimiting Html.referenceLength_le
  · exact Html.steady_doctypeLength.selfDelimiting Html.hasRoom_doctypeLength.le_length
  · exact CFamily.steady_lineCommentLength.selfDelimiting
      CFamily.hasRoom_lineCommentLength.le_length
  · exact CFamily.steady_numberLength.selfDelimiting CFamily.numberLength_le
  · exact CFamily.steady_escapeLength.selfDelimiting CFamily.escapeLength_le
  · exact CFamily.steady_rawStringLength.selfDelimiting CFamily.rawStringLength_le
  · exact CFamily.steady_operatorLength.selfDelimiting CFamily.operatorLength_le
  · exact (JavaScript.steady_restOfLine "//").selfDelimiting
      JavaScript.hasRoom_lineCommentLength.le_length
  · exact (JavaScript.steady_restOfLine "#!").selfDelimiting
      JavaScript.hasRoom_hashbangLength.le_length
  · exact JavaScript.steady_regexLength.selfDelimiting JavaScript.regexLength_le
  · exact JavaScript.selfDelimiting_operatorLength
  · exact JavaScript.steady_bracedLength.selfDelimiting JavaScript.hasRoom_bracedLength.le_length
  · exact Json.steady_numberLength.selfDelimiting Json.numberLength_le
  · exact Json.steady_escapeLength.selfDelimiting Json.escapeLength_le

/-- The lengths by which matchers cut what they look at while they match. -/
def innerLengths : List (List Char → Nat) := [
  CFamily.spliceLength, CFamily.encodingMarkLength,
  JavaScript.markupIdentifierLength, JavaScript.tagNameLength, JavaScript.attributeNameLength,
  JavaScript.quotedLength, JavaScript.plainCodeLength, JavaScript.closedCommentLength,
  Text.quotedLength, Json.integerLength, Json.fractionLength, Json.exponentLength]

theorem innerLengths_le : ∀ length ∈ innerLengths, ∀ s, length s ≤ s.length := by
  simp only [innerLengths, List.forall_mem_cons]
  exact ⟨CFamily.spliceLength_le, CFamily.encodingMarkLength_le, Text.wordLength_le,
    JavaScript.tagNameLength_le, JavaScript.attributeNameLength_le, JavaScript.quotedLength_le,
    JavaScript.plainCodeLength_le, JavaScript.hasRoom_closedCommentLength.le_length,
    Text.quotedLength_le, Json.integerLength_le, Json.fractionLength_le, Json.exponentLength_le,
    List.forall_mem_nil _⟩

/-- A pseudo-attribute that is terminated is read alike on its own text, which stands at the front
of the source. -/
def PseudoAttributesDelimited : Prop :=
  ∀ keyword ∈ ["version", "encoding", "standalone"],
    ∀ valueLength ∈ [Xml.versionLength, Xml.encodingLength, Xml.standaloneLength],
      ∀ s info, Xml.PseudoAttribute.read? keyword valueLength s = some info → info.terminated →
        info.text <+: s ∧ Xml.PseudoAttribute.read? keyword valueLength info.text = some info

omit [Text.IdentifierClasses] in
theorem pseudoAttributesDelimited : PseudoAttributesDelimited := by
  intro keyword hkeyword valueLength hvalue s info hread hterminated
  simp only [List.mem_cons, List.not_mem_nil, or_false] at hkeyword hvalue
  obtain ⟨value, hvalue⟩ : ∃ value, Xml.MeasuresValue valueLength value := by
    rcases hvalue with rfl | rfl | rfl
    · exact ⟨_, Xml.measuresValue_versionLength⟩
    · exact ⟨_, Xml.measuresValue_encodingLength⟩
    · exact ⟨_, Xml.measuresValue_standaloneLength⟩
  have hspace (rest : List Char) : Text.startsIn Xml.isSpace (keyword.toList ++ rest) = false := by
    rcases hkeyword with rfl | rfl | rfl <;> rfl
  refine ⟨Xml.PseudoAttribute.text_prefix_of_read? hread hterminated, ?_⟩
  have hown := Xml.PseudoAttribute.read?_text hspace hvalue hread hterminated []
  rw [List.append_nil] at hown
  exact hown

/-- Every matcher delimits itself, those that tell more than a length in all that they tell. -/
structure MatchersDelimited : Prop where
  lengths : ∀ length ∈ matchedLengths, Text.SelfDelimiting id length
  blockComment : Text.SelfDelimiting Text.Extent.length Comment.blockExtent
  htmlComment : Text.SelfDelimiting Html.CommentExtent.length Html.commentExtent
  pseudoAttributes : PseudoAttributesDelimited
  number : Text.SelfDelimiting JavaScript.NumericLiteral.length JavaScript.numericLiteral
  escape : Text.SelfDelimiting JavaScript.Escape.length JavaScript.escape
  tag : Text.SelfDelimiting JavaScript.tagWidth JavaScript.lastingTag?
  string : Text.SelfDelimiting Text.Extent.length Json.stringExtent
  literalName : Text.SelfDelimiting (fun found ↦ (found.map Prod.fst).getD 0) Json.literalName?
  encodingMark : ∀ s, Text.IsBoundary s (Text.byteLength (s.take (CFamily.encodingMarkLength s)))
  inside : ∀ length ∈ innerLengths, ∀ s, length s ≤ s.length

theorem matchersDelimited : MatchersDelimited where
  lengths := selfDelimiting_matchedLengths
  blockComment := Comment.steady_blockExtent.selfDelimiting Comment.hasRoom_blockExtent.le_length
  htmlComment := Html.steady_commentExtent.selfDelimiting Html.hasRoom_commentExtent.le_length
  pseudoAttributes := pseudoAttributesDelimited
  number := JavaScript.steady_numericLiteral.selfDelimiting JavaScript.numericLiteral_length_le
  escape := JavaScript.steady_escape.selfDelimiting JavaScript.escape_length_le
  tag := JavaScript.selfDelimiting_lastingTag?
  string := Json.steady_stringExtent.selfDelimiting Json.hasRoom_stringExtent.le_length
  literalName := Json.selfDelimiting_literalName?
  encodingMark s := Text.isBoundary_take s _
  inside := innerLengths_le

end Highlight
