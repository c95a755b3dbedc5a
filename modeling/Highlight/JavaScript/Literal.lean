import Highlight.JavaScript.Braced
import Highlight.JavaScript.Escape
import Highlight.JavaScript.Number
import Highlight.Piece.Literal

/-!
# Literals of scripts

Strings, templates and numbers. The code substituted into a template is read by `embed`, which the
scan of scripts supplies.
-/

namespace Highlight.JavaScript

/-- The escape at the front of the text, as an error if it is malformed. -/
def escapePieces (s : List Char) : List (Piece Kind) :=
  let found := escape s
  [.token (if found.erroneous then .error else .escape) (s.take found.length)]

/-- What a string in the given quotes finds where it stands. It ends at the end of its line at the
latest. -/
def stringTurn (quote : Char) : List Char → Turn Kind
  | [] => .close 0
  | s@(c :: _) =>
    if c = '\n' ∨ c = '\r' then .close 0
    else if c = quote then .close 1
    else if c = '\\' then .aside (escapePieces s)
    else .plain

def string : Construct Kind where
  read
    | [] => none
    | s@(quote :: _) =>
      if Text.isQuote quote then Construct.parts .string 1 (stringTurn quote) s else none

/-- The code substituted at the front of the text, with its brackets. Code that is not closed takes
all the rest with it. -/
def substitution (embed : List Char → List (Piece Kind)) (s : List Char) : List (Piece Kind) :=
  let opening := Piece.token .symPunc (s.take 2)
  let n := bracedLength (s.drop 1)
  let rest := s.drop 2
  if n = 0 then opening :: embed rest
  else opening :: (embed (rest.take (n - 2)) ++ [.token .symPunc ((rest.drop (n - 2)).take 1)])

/-- What a template finds where it stands. It ends at the end of the text at the latest. -/
def templateTurn (embed : List Char → List (Piece Kind)) : List Char → Turn Kind
  | [] => .close 0
  | s@(c :: _) =>
    if c = '\x60' then .close 1
    else if c = '\\' then .aside (escapePieces s)
    else if Text.startsWith "$\x7b" s then .aside (substitution embed s)
    else .plain

def template (embed : List Char → List (Piece Kind)) : Construct Kind where
  read s :=
    if Text.startsIn (· == '\x60') s then Construct.parts .string 1 (templateTurn embed) s else none

/-- A number, as an error if it lacks digits. -/
def number : Construct Kind where
  read s :=
    let literal := numericLiteral s
    let n := literal.length
    if n = 0 then none
    else if literal.erroneous then some [.token .error (s.take n)]
    else
      let rest := s.drop literal.radixMark
      let digits := literal.integer + literal.fraction + literal.exponent
      some (Piece.shown .numberDecor (s.take literal.radixMark) ++
        Piece.shown .number (rest.take digits) ++
        Piece.shown .numberDecor ((rest.drop digits).take literal.suffix))

end Highlight.JavaScript
