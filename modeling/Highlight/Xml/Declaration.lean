import Highlight.Piece.Construct
import Highlight.Xml.Literal
import Highlight.Xml.Name

/-!
# The XML declaration

A document may begin with a declaration of its version and, each optional but in this order, its
encoding and whether it stands alone.
-/

namespace Highlight.Xml

/-- A pseudo-attribute of a declaration: white space, a keyword, an equals sign and a quoted
value. -/
structure PseudoAttribute where
  space : List Char
  keyword : List Char
  spaceBeforeEquals : List Char
  spaceAfterEquals : List Char
  quote : Char
  /-- The text between the quotes. -/
  value : List Char
  /-- Whether the value is not empty and its quote follows. -/
  terminated : Bool
  deriving DecidableEq, Repr

namespace PseudoAttribute

/-- Reads a pseudo-attribute up to the end of its value, whose length is measured on the text. -/
def read? (keyword : String) (valueLength : List Char → Nat) (s : List Char) :
    Option PseudoAttribute := do
  let space := s.takeWhile isSpace
  if space.isEmpty then none
  let s ← Text.after? keyword (s.drop space.length)
  let before := s.takeWhile isSpace
  let s ← Text.after? "=" (s.drop before.length)
  let behind := s.takeWhile isSpace
  let s := s.drop behind.length
  let quote ← s.head?
  if !Text.isQuote quote then none
  let s := s.drop 1
  let value := s.take (valueLength s)
  return {
    space
    keyword := keyword.toList
    spaceBeforeEquals := before
    spaceAfterEquals := behind
    quote
    value
    terminated := !value.isEmpty && Text.startsIn (· == quote) (s.drop value.length) }

/-- The text of the pseudo-attribute with both quotes. -/
def text (info : PseudoAttribute) : List Char :=
  info.space ++ info.keyword ++ info.spaceBeforeEquals ++ ['='] ++ info.spaceAfterEquals ++
    [info.quote] ++ info.value ++ [info.quote]

def pieces (info : PseudoAttribute) : List (Piece Kind) :=
  Piece.hidden info.space ++ Piece.shown .markupAttr info.keyword ++
    Piece.hidden info.spaceBeforeEquals ++ [.token .symPunc ['=']] ++
    Piece.hidden info.spaceAfterEquals ++
    [.token .string ([info.quote] ++ info.value ++ [info.quote])]

/-- A pseudo-attribute that has to be there. -/
def required (keyword : String) (valueLength : List Char → Nat) : Construct Kind where
  read s := do
    let info ← read? keyword valueLength s
    if info.terminated then some info.pieces else none

/-- A pseudo-attribute that may be missing, but not be wrong. -/
def allowed (keyword : String) (valueLength : List Char → Nat) : Construct Kind where
  read s :=
    match read? keyword valueLength s with
    | some info => if info.terminated then some info.pieces else none
    | none => some []

end PseudoAttribute

def declaration : Construct Kind :=
  .seq [
    .literal .directive "<?xml",
    PseudoAttribute.required "version" versionLength,
    PseudoAttribute.allowed "encoding" encodingLength,
    PseudoAttribute.allowed "standalone" standaloneLength,
    .skip spaceLength,
    .literal .directive "?>"]

end Highlight.Xml
