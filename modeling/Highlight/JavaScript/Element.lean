import Highlight.Html.Name
import Highlight.JavaScript.Tag

/-!
# Elements in scripts

An element is a tag that is complete in itself, or an opening tag with everything up to the tag that
closes it. Code inside it is read by `embed`, which the scan of scripts supplies.
-/

namespace Highlight.JavaScript

variable [Text.IdentifierClasses]

def container (embed : List Char → List (Piece Kind)) (text : List Char) : List (Piece Kind) :=
  [.token .symBrace (text.take 1)] ++ embed ((text.drop 1).take (text.length - 2)) ++
    Piece.shown .symBrace ((text.drop 1).drop (text.length - 2))

def commentPieces (text : List Char) : List (Piece Kind) :=
  if Text.startsWith "//" text then Comment.linePieces text else Comment.blockPieces true text

def showPart (embed : List Char → List (Piece Kind)) : Piece TagPart → List (Piece Kind)
  | .gap text => [.gap text]
  | .token .punctuation text => [.token .symPunc text]
  | .token .tagName text => [.token .markupTag text]
  | .token .attributeName text => [.token .markupAttr text]
  | .token .string text => [.token .string text]
  | .token .comment text => commentPieces text
  | .token .code text => container embed text
  | .withdrawn .. => []

def showTag (embed : List Char → List (Piece Kind)) (parts : List (Piece TagPart)) :
    List (Piece Kind) :=
  parts.flatMap (showPart embed)

/-- Whether plain text between tags ends before the character. -/
def endsText (c : Char) : Bool := c == '\x7b' || c == '<' || c == '&'

def depthAfter (kind : TagKind) (depth : Nat) : Nat :=
  if kind.opens then depth + 1 else if kind.closes then depth - 1 else depth

/-- Reads the next child while `depth` elements are open. Code that is not closed takes all the rest
with it. -/
def child (embed : List Char → List (Piece Kind)) (depth : Nat) (s : List Char) :
    Option (List (Piece Kind) × Nat) :=
  if depth = 0 then none
  else if Text.startsWith "\x7b" s then
    let n := bracedLength s
    if n = 0 then some (.token .symBrace (s.take 1) :: embed (s.drop 1), depth)
    else some (container embed (s.take n), depth)
  else if Text.startsWith "<" s then
    match tag? s with
    | some (kind, parts) => some (showTag embed parts, depthAfter kind depth)
    | none => some ([.gap (s.take 1)], depth)
  else if Text.startsWith "&" s then
    let n := Html.referenceLength s
    if n = 0 then some ([.gap (s.take 1)], depth)
    else some ([.token .escape (s.take n)], depth)
  else some (Piece.hidden (s.takeWhile (!endsText ·)), depth)

/-- An element with all its children. -/
def element (embed : List Char → List (Piece Kind)) : Construct Kind where
  read s :=
    match tag? s with
    | none => none
    | some (kind, parts) =>
      if kind.closes then none
      else if kind.opens then
        some (showTag embed parts ++ run (child embed) 1 (s.drop (Piece.width parts)))
      else some (showTag embed parts)

end Highlight.JavaScript
