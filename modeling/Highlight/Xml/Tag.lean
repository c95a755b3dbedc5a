import Highlight.Piece.Literal
import Highlight.Text.Quoted
import Highlight.Xml.Content

/-!
# Tags in XML

Start tags with their attributes, empty-element tags and end tags. An attribute value is shown as a
string in stretches between its references.
-/

namespace Highlight.Xml

def valueTurn (quote : Char) : List Char → Turn Kind
  | [] => .wrong
  | s@(c :: _) =>
    if c = quote then .close 1
    else if c = '<' then .wrong
    else if c = '&' then
      match reference s with
      | some pieces => .aside pieces
      | none => .spoiled
    else .plain

def attributeValue : Construct Kind := .choose fun s ↦
  .onlyIf (Text.startsIn Text.isQuote s) (.parts .string 1 (valueTurn (s.headD '"')))

def tagAttribute : Construct Kind :=
  .seq [
    .measured .markupAttr nameLength,
    .skip spaceLength,
    .skipLiteral "=",
    .skip spaceLength,
    attributeValue]

def spacedAttribute : Construct Kind := .seq [.skipSome spaceLength, tagAttribute]

def startTag : Construct Kind :=
  .seq [
    .literal .symPunc "<",
    .measured .markupTag nameLength,
    .many spacedAttribute,
    .skip spaceLength,
    .firstOf [.literal .symPunc ">", .literal .symPunc "/>"]]

def endTag : Construct Kind :=
  .seq [
    .literal .symPunc "</",
    .measured .markupTag nameLength,
    .skip spaceLength,
    .literal .symPunc ">"]

end Highlight.Xml
