import Highlight.Html.RawText
import Highlight.Piece.Literal

/-!
# Tags in HTML

Tags are read leniently: attributes need no value, values need no quotes, and a stray slash is
passed over. A start tag takes the raw text of its element with it.
-/

namespace Highlight.Html

def valueTurn (s : List Char) : Turn Kind :=
  if s.isEmpty then .close 0
  else
    match reference s with
    | some pieces => .aside pieces
    | none => .plain

def valueParts : Construct Kind := .parts .string 0 valueTurn

def attributeValue : Construct Kind where
  read s :=
    let n := if Text.startsIn Text.isQuote s then Text.quotedLength s else unquotedLength s
    if n = 0 then none else valueParts (s.take n)

/-- An equals sign and a value, or nothing. -/
def assignedValue : Construct Kind := .choose fun s ↦
  if Text.startsWith "=" (s.drop (spaceLength s)) then
    .seq [.skip spaceLength, .skipLiteral "=", .skip spaceLength, attributeValue]
  else .seq []

def tagAttribute : Construct Kind :=
  .seq [.measured .markupAttr attributeNameLength, assignedValue]

/-- A slash that does not end its tag. -/
def straySlash : Construct Kind where
  read s :=
    if Text.startsWith "/>" s then none else Construct.skipLiteral "/" s

/-- The end of a start tag for the name, with the raw text of the element if that has any. -/
def tagEnd (name : List Char) : Construct Kind where
  read s :=
    if Text.startsWith ">" s then
      let rest := s.drop 1
      match textContent? name with
      | some content =>
        some (.token .symPunc ['>'] :: rawText content (rest.take (rawTextLength name rest)))
      | none => some [.token .symPunc ['>']]
    else Construct.literal .symPunc "/>" s

def tagPart : Construct Kind := .firstOf [.skipSome spaceLength, straySlash, tagAttribute]

/-- A start tag. What follows its end depends on its name. -/
def startTag : Construct Kind := .choose fun s ↦
  let rest := s.drop 1
  .seq [
    .literal .symPunc "<",
    .measured .markupTag tagNameLength,
    .many tagPart,
    tagEnd (rest.take (tagNameLength rest))]

def endTag : Construct Kind :=
  .seq [
    .literal .symPunc "</",
    .measured .markupTag tagNameLength,
    .skip spaceLength,
    .literal .symPunc ">"]

end Highlight.Html
