import Highlight.Html.Comment
import Highlight.Html.Doctype
import Highlight.Html.Tag
import Highlight.Xml.Content

/-!
# Reading HTML

Whatever is no item of markup is plain text, so a document is always read to its end.
-/

namespace Highlight.Html

/-- The length of plain text up to the next `<` or `&`, at least its first character. -/
def textLength : List Char → Nat
  | [] => 0
  | s@(_ :: _) => max 1 (Text.spanLength (fun c ↦ c != '<' && c != '&') s)

/-- An item of a document. Its forms are tried in this order. -/
def item : Construct Kind :=
  .firstOf [
    comment,
    doctype,
    Xml.cdata,
    endTag,
    startTag,
    reference,
    .skipSome textLength]

def scan (s : List Char) : List (Piece Kind) := item.repeated s

end Highlight.Html
