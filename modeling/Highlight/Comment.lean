import Highlight.Piece.Construct
import Highlight.Text.Extent

/-!
# Block comments

A comment from a slash and a star up to the next star and slash, or up to the end of the text where
there is none.
-/

namespace Highlight.Comment

def blockExtent (s : List Char) : Text.Extent :=
  match Text.after? "/*" s with
  | none => {}
  | some body =>
    match Text.findLiteral? "*/" body with
    | some n => ⟨2 + n + 2, true⟩
    | none => ⟨s.length, false⟩

def linePieces (text : List Char) : List (Piece Kind) :=
  Piece.framed .commentDelimiter .comment 2 0 text

def blockPieces (terminated : Bool) (text : List Char) : List (Piece Kind) :=
  Piece.framed .commentDelimiter .comment 2 (if terminated then 2 else 0) text

/-- A line comment whose length is measured on the text. -/
def line (length : List Char → Nat) : Construct Kind where
  read s :=
    let n := length s
    if n = 0 then none else some (linePieces (s.take n))

def block : Construct Kind where
  read s :=
    let extent := blockExtent s
    if extent.length = 0 then none
    else some (blockPieces extent.terminated (s.take extent.length))

end Highlight.Comment
