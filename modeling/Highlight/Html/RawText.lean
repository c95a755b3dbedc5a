import Highlight.Html.Name
import Highlight.Piece.Construct

/-!
# Raw text in HTML

The content of some elements is text without markup, up to the end tag of the element or to the end
of the document. In some of these elements the text still has references.
-/

namespace Highlight.Html

/-- What the content of an element is, if it is not markup. -/
inductive TextContent where
  /-- Text and nothing else. -/
  | raw
  /-- Text with character references. -/
  | escapable
  deriving DecidableEq, Repr

/-- The content of the element with the given name, if it is not markup. -/
def textContent? (name : List Char) : Option TextContent :=
  if ["script", "style"].any fun raw ↦ Text.sameIgnoringCase raw.toList name then some .raw
  else if ["textarea", "title"].any fun raw ↦ Text.sameIgnoringCase raw.toList name then
    some .escapable
  else none

/-- Whether an end tag for the name begins here. -/
def closesElement (name s : List Char) : Bool :=
  match Text.after? "</" s with
  | none => false
  | some rest =>
    let behind := rest.drop name.length
    Text.sameIgnoringCase (rest.take name.length) name &&
      (behind.isEmpty || Text.startsIn (fun c ↦ isSpace c || c == '/' || c == '>') behind)

def rawTextLength (name s : List Char) : Nat := (Text.find? (closesElement name) s).getD s.length

def reference : Construct Kind := .measured .escape referenceLength

/-- The length of a text up to the next `&` behind its first character. -/
def plainLength : List Char → Nat
  | [] => 0
  | _ :: s => 1 + Text.spanLength (· != '&') s

/-- A character reference, or text up to the next place where one may begin. -/
def rawTextPart : Construct Kind := .firstOf [reference, .skipSome plainLength]

def rawText (content : TextContent) (s : List Char) : List (Piece Kind) :=
  match content with
  | .raw => Piece.hidden s
  | .escapable => rawTextPart.repeated s

end Highlight.Html
