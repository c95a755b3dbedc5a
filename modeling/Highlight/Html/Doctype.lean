import Highlight.Html.Name
import Highlight.Piece.Construct

/-!
# The document type in HTML

A declaration runs to the next `>`. Inside it the first word names the root element, `PUBLIC` and
`SYSTEM` are keywords, and quoted text is a string, closed or not.
-/

namespace Highlight.Html

def doctypeOpening : List Char := "<!DOCTYPE".toList

def doctypeLength (s : List Char) : Nat :=
  let n := doctypeOpening.length
  if Text.sameIgnoringCase (s.take n) doctypeOpening then
    match Text.findIn? (· == '>') (s.drop n) with
    | some m => n + m + 1
    | none => 0
  else 0

def doctypeWordKind (named : Bool) (word : List Char) : Kind :=
  if !named then .markupTag
  else if Text.sameIgnoringCase word "PUBLIC".toList ||
      Text.sameIgnoringCase word "SYSTEM".toList then .keyword
  else .identifier

/-- Reads the next part of the inside of a declaration. `named` says whether the root element was
named before. -/
def doctypePart (named : Bool) (s : List Char) : Option (List (Piece Kind) × Bool) :=
  let spaces := spaceLength s
  if spaces ≠ 0 then some ([.gap (s.take spaces)], named)
  else if Text.startsIn Text.isQuote s then
    let quoted := Text.quotedLength s
    let n := if quoted = 0 then s.length else quoted
    some ([.token .string (s.take n)], named)
  else
    let word := s.takeWhile fun c ↦ !isSpace c && !Text.isQuote c
    some (Piece.shown (doctypeWordKind named word) word, true)

def doctype : Construct Kind where
  read s :=
    let length := doctypeLength s
    if length = 0 then none
    else
      let n := doctypeOpening.length
      let inside := (s.drop n).take (length - n - 1)
      some ([.token .directive (s.take n)] ++ run doctypePart false inside ++
        [.token .directive ['>']])

end Highlight.Html
