import Highlight.Xml.Declaration
import Highlight.Xml.Doctype
import Highlight.Xml.Tag

/-!
# Reading XML

A document is read item by item. A `<`, a `&` or a `]]>` that begins no well-formed item ends the
scan, since XML has no lenient reading of it.
-/

namespace Highlight.Xml

/-- An item of a document. Its forms are tried in this order. -/
def item : Construct Kind :=
  .firstOf [
    comment,
    cdata,
    instruction,
    doctype,
    endTag,
    startTag,
    reference,
    characterData]

/-- A document, which may begin with a declaration, as far as it can be read. -/
def document : Construct Kind := .seq [.optional declaration, .many item]

def scan (s : List Char) : List (Piece Kind) := (document s).getD []

end Highlight.Xml
