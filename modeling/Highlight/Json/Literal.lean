import Highlight.Piece.Basic
import Highlight.Text.Digit
import Highlight.Text.Extent

/-!
# Strings in JSON

A string ends at the first quote that no backslash protects, or else before the line end. It is
shown in stretches between its escapes. An escape that JSON does not know is an error of two
characters.
-/

namespace Highlight.Json

def isLineEnd (c : Char) : Bool := c == '\n' || c == '\r'

/-- How far a string reaches, counted on from `n` characters that were read. -/
def stringExtentFrom (n : Nat) : List Char → Text.Extent
  | [] => ⟨n, false⟩
  | c :: s =>
    if c = '"' then ⟨n + 1, true⟩
    else if isLineEnd c then ⟨n, false⟩
    else if c = '\\' then
      match s with
      | [] => ⟨n + 1, false⟩
      | d :: rest => if isLineEnd d then ⟨n + 1, false⟩ else stringExtentFrom (n + 2) rest
    else stringExtentFrom (n + 1) s

def stringExtent : List Char → Text.Extent
  | [] => {}
  | c :: s => if c = '"' then stringExtentFrom 1 s else {}

/-- The characters that a single backslash may stand before. -/
def isEscapable (c : Char) : Bool :=
  c == '"' || c == '\\' || c == '/' || c == 'b' || c == 'f' || c == 'n' || c == 'r' || c == 't'

/-- The length of an escape that JSON knows. -/
def escapeLength : List Char → Nat
  | '\\' :: c :: s =>
    if isEscapable c then 2
    else if c = 'u' ∧ Text.spanLength Text.isHexDigit (s.take 4) = 4 then 6
    else 0
  | _ => 0

/-- Reads the next `left` characters as the inside of a string shown as `kind`. The running
stretch is `part`, last character first; the pieces before it are `done`, last one first. -/
def stringPartsFrom (kind : Kind) (done : List (Piece Kind)) (part : List Char) :
    (left : Nat) → List Char → List (Piece Kind)
  | 0, _ => done.reverse ++ Piece.shown kind part.reverse
  | _, [] => done.reverse ++ Piece.shown kind part.reverse
  | left + 1, s@(c :: rest) =>
    if c = '\\' ∧ left ≠ 0 then
      let known := escapeLength s
      let n := if known = 0 then 2 else known
      let escape := Piece.token (if known = 0 then .error else .escape) (s.take n)
      stringPartsFrom kind (escape :: (Piece.shown kind part.reverse ++ done)) []
        (left + 1 - n) (s.drop n)
    else stringPartsFrom kind done (c :: part) left rest
termination_by left => left
decreasing_by
  · split <;> omega
  · omega

def stringParts (kind : Kind) (length : Nat) (s : List Char) : List (Piece Kind) :=
  stringPartsFrom kind [] [] length s

end Highlight.Json
