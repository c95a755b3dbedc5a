import Highlight.CFamily.Comment
import Highlight.CFamily.Directive
import Highlight.CFamily.Keyword
import Highlight.CFamily.Literal
import Highlight.CFamily.Number
import Highlight.CFamily.Operator

/-!
# Reading C and C++

Both dialects are read alike; they differ in their keywords and in raw strings. A hash sign begins a
directive where only white space and comments stand before it on its line. A character that begins
nothing is an error, so the whole text is read.
-/

namespace Highlight.CFamily

variable [Text.IdentifierClasses]

def word (dialect : Dialect) (strict : Bool) : Construct Kind where
  read s :=
    let name := s.take (identifierLength s)
    if name.isEmpty then none
    else some [.token ((keyword? dialect strict name).getD .identifier) name]

def operator : Construct Kind where
  read s := do
    let op ← Operator.find? operators s
    return [.token (Operator.kind op) op.toList]

/-- The first character, as an error. -/
def junk : Construct Kind := .measured .error fun s ↦ (s.take 1).length

/-- Anything but white space and comments. -/
def code (dialect : Dialect) (strict atLineStart : Bool) : Construct Kind :=
  .firstOf [
    .onlyIf atLineStart directive,
    .onlyIf (dialect = .cpp) rawString,
    literal,
    .measured .number numberLength,
    word dialect strict,
    operator,
    junk]

/-- Reads the next item. `atLineStart` says whether only white space and comments stand before it
on its line; a line splice does not begin a line. -/
def item (dialect : Dialect) (strict atLineStart : Bool) (s : List Char) :
    Option (List (Piece Kind) × Bool) :=
  let spaces := s.takeWhile isSpace
  let splice := spliceLength s
  if !spaces.isEmpty then some ([.gap spaces], atLineStart || spaces.any isLineEnd)
  else if splice ≠ 0 then some ([.gap (s.take splice)], atLineStart)
  else
    match comment s with
    | some pieces => some (pieces, atLineStart)
    | none => (code dialect strict atLineStart s).map (·, false)

def scan (dialect : Dialect) (strict : Bool) (s : List Char) : List (Piece Kind) :=
  run (item dialect strict) true s

end Highlight.CFamily
