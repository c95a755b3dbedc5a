import Highlight.Piece.Basic
import Highlight.Text.Digit
import Highlight.Xml.Literal
import Highlight.Xml.Name

/-!
# The grammar of XML

Which texts are documents, said without a scanner: every form is a set of texts, given by how they
are put together and with no order in which anything is tried. The declaration in front of a
document, which could be read as an instruction too, is cut into what is shown of it and the white
space between.
-/

namespace Highlight.Xml.Grammar

/-- Texts of the form put one behind another, as many as there are. -/
inductive Many (form : List Char → Prop) : List Char → Prop
  | nil : Many form []
  | cons {s t : List Char} : form s → Many form t → Many form (s ++ t)

/-- White space, which may be missing. -/
def OptionalSpace (s : List Char) : Prop := ∀ c ∈ s, isSpace c

def Space (s : List Char) : Prop := s ≠ [] ∧ OptionalSpace s

inductive Name : List Char → Prop
  | mk {c : Char} {s : List Char} : isNameStart c → (∀ d ∈ s, isNameChar d) → Name (c :: s)

inductive SystemLiteral : List Char → Prop
  | mk {quote : Char} {s : List Char} :
      Text.isQuote quote → quote ∉ s → SystemLiteral ([quote] ++ s ++ [quote])

inductive PubidLiteral : List Char → Prop
  | mk {quote : Char} {s : List Char} :
      Text.isQuote quote → quote ∉ s → (∀ c ∈ s, isPubidChar c) →
        PubidLiteral ([quote] ++ s ++ [quote])

inductive Reference : List Char → Prop
  | decimal {digits : List Char} : digits ≠ [] → (∀ c ∈ digits, c.isDigit) →
      Reference ("&#".toList ++ digits ++ ";".toList)
  | hexadecimal {digits : List Char} : digits ≠ [] → (∀ c ∈ digits, Text.isHexDigit c) →
      Reference ("&#x".toList ++ digits ++ ";".toList)
  | entity {name : List Char} : Name name → Reference ("&".toList ++ name ++ ";".toList)

inductive ParameterReference : List Char → Prop
  | mk {name : List Char} :
      Name name → ParameterReference ("%".toList ++ name ++ ";".toList)

/-- A comment. No two hyphens stand next to each other in it and none at its end. -/
inductive Comment : List Char → Prop
  | mk {body : List Char} : ¬ "--".toList <:+: body → body.getLast? ≠ some '-' →
      Comment ("<!--".toList ++ body ++ "-->".toList)

/-- A CDATA section, which the first `]]>` ends. -/
inductive CData : List Char → Prop
  | mk {body : List Char} : ¬ "]]>".toList <:+: body →
      CData ("<![CDATA[".toList ++ body ++ "]]>".toList)

/-- A processing instruction, which the first `?>` ends. White space sets off what is behind its
name. -/
inductive Instruction : List Char → Prop
  | mk {name body : List Char} : Name name → ¬ "?>".toList <:+: body →
      body = [] ∨ Text.startsIn isSpace body →
        Instruction ("<?".toList ++ name ++ body ++ "?>".toList)

/-- The inside of a declaration with the `>` that ends it. A `%` in front of what may begin a name
has to begin a reference. -/
inductive DeclarationRest : List Char → Prop
  | close : DeclarationRest ">".toList
  | literal {s t : List Char} : SystemLiteral s → DeclarationRest t → DeclarationRest (s ++ t)
  | reference {s t : List Char} :
      ParameterReference s → DeclarationRest t → DeclarationRest (s ++ t)
  | character {c : Char} {t : List Char} : c ≠ '>' → Text.isQuote c = false →
      (c = '%' → Text.startsIn isNameStart t = false) → DeclarationRest t →
        DeclarationRest (c :: t)

inductive Declaration : List Char → Prop
  | mk {mark rest : List Char} : mark ≠ [] → (∀ c ∈ mark, c.isUpper) → DeclarationRest rest →
      Declaration ("<!".toList ++ mark ++ rest)

inductive SubsetPart : List Char → Prop
  | space {s : List Char} : Space s → SubsetPart s
  | comment {s : List Char} : Comment s → SubsetPart s
  | instruction {s : List Char} : Instruction s → SubsetPart s
  | reference {s : List Char} : ParameterReference s → SubsetPart s
  | declaration {s : List Char} : Declaration s → SubsetPart s

/-- An internal subset in its brackets and the white space behind it, which may all be missing. -/
inductive InternalSubset : List Char → Prop
  | absent : InternalSubset []
  | bracketed {subset space : List Char} : Many SubsetPart subset → OptionalSpace space →
      InternalSubset ("[".toList ++ subset ++ "]".toList ++ space)

/-- An external identifier and the white space in front of it, which may all be missing. -/
inductive ExternalId : List Char → Prop
  | absent : ExternalId []
  | system {before between literal : List Char} :
      Space before → Space between → SystemLiteral literal →
        ExternalId (before ++ "SYSTEM".toList ++ between ++ literal)
  | pubid {before between pubid behind literal : List Char} :
      Space before → Space between → PubidLiteral pubid → Space behind → SystemLiteral literal →
        ExternalId (before ++ "PUBLIC".toList ++ between ++ pubid ++ behind ++ literal)

inductive Doctype : List Char → Prop
  | mk {before name id space subset : List Char} :
      Space before → Name name → ExternalId id → OptionalSpace space → InternalSubset subset →
        Doctype ("<!DOCTYPE".toList ++ before ++ name ++ id ++ space ++ subset ++ ">".toList)

/-- A quoted attribute value. Every `&` in it begins a reference. -/
inductive AttributeValue : List Char → Prop
  | mk {quote : Char} {s : List Char} : Text.isQuote quote → quote ∉ s → '<' ∉ s →
      (∀ front rest, s = front ++ '&' :: rest →
        ∃ reference, Reference reference ∧ reference <+: '&' :: rest) →
        AttributeValue ([quote] ++ s ++ [quote])

/-- An attribute with the white space that sets it off. -/
inductive Attribute : List Char → Prop
  | mk {space name before behind value : List Char} :
      Space space → Name name → OptionalSpace before → OptionalSpace behind →
        AttributeValue value →
          Attribute (space ++ name ++ before ++ "=".toList ++ behind ++ value)

inductive StartTag : List Char → Prop
  | mk {name attributes space closing : List Char} :
      Name name → Many Attribute attributes → OptionalSpace space →
        closing = ">".toList ∨ closing = "/>".toList →
          StartTag ("<".toList ++ name ++ attributes ++ space ++ closing)

inductive EndTag : List Char → Prop
  | mk {name space : List Char} : Name name → OptionalSpace space →
      EndTag ("</".toList ++ name ++ space ++ ">".toList)

inductive Item : List Char → Prop
  | comment {s : List Char} : Comment s → Item s
  | cdata {s : List Char} : CData s → Item s
  | instruction {s : List Char} : Instruction s → Item s
  | doctype {s : List Char} : Doctype s → Item s
  | endTag {s : List Char} : EndTag s → Item s
  | startTag {s : List Char} : StartTag s → Item s
  | reference {s : List Char} : Reference s → Item s

/-- Text between items, which may be missing. -/
structure CharacterData (s : List Char) : Prop where
  noMarkup : '<' ∉ s
  noReference : '&' ∉ s
  noSectionEnd : ¬ "]]>".toList <:+: s

/-- A document: items, and in front of each and at the end all the text there is. -/
inductive Document : List Char → Prop
  | last {text : List Char} : CharacterData text → Document text
  | next {text item rest : List Char} :
      CharacterData text → Item item → Document rest → Document (text ++ item ++ rest)

inductive VersionNumber : List Char → Prop
  | mk {digits : List Char} : digits ≠ [] → (∀ c ∈ digits, c.isDigit) →
      VersionNumber ("1.".toList ++ digits)

inductive EncodingName : List Char → Prop
  | mk {c : Char} {s : List Char} : c.isAlpha → (∀ d ∈ s, isEncodingChar d) → EncodingName (c :: s)

inductive Standalone : List Char → Prop
  | yes : Standalone "yes".toList
  | no : Standalone "no".toList

/-- A keyword with a quoted value, set off by white space. -/
inductive PseudoAttribute (keyword : String) (value : List Char → Prop) : List (Piece Kind) → Prop
  | mk {space before behind s : List Char} {quote : Char} :
      Space space → OptionalSpace before → OptionalSpace behind → Text.isQuote quote → value s →
        PseudoAttribute keyword value
          (Piece.hidden space ++ [.token .markupAttr keyword.toList] ++ Piece.hidden before ++
            [.token .symPunc "=".toList] ++ Piece.hidden behind ++
            [.token .string ([quote] ++ s ++ [quote])])

/-- Pieces of the form, or none. -/
inductive Optional (form : List (Piece Kind) → Prop) : List (Piece Kind) → Prop
  | absent : Optional form []
  | present {pieces : List (Piece Kind)} : form pieces → Optional form pieces

inductive XmlDeclaration : List (Piece Kind) → Prop
  | mk {version encoding standalone : List (Piece Kind)} {space : List Char} :
      PseudoAttribute "version" VersionNumber version →
      Optional (PseudoAttribute "encoding" EncodingName) encoding →
      Optional (PseudoAttribute "standalone" Standalone) standalone → OptionalSpace space →
        XmlDeclaration ([.token .directive "<?xml".toList] ++ version ++ encoding ++ standalone ++
          Piece.hidden space ++ [.token .directive "?>".toList])

end Highlight.Xml.Grammar
