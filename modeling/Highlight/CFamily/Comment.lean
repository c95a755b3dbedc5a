import Highlight.CFamily.Character
import Highlight.Comment

/-!
# Comments of C and C++

A line comment goes on behind a line splice.
-/

namespace Highlight.CFamily

/-- Counts on from `n` to the first line end that is not spliced. -/
def lineLengthFrom (n : Nat) : List Char → Nat
  | [] => n
  | s@(c :: rest) =>
    if isLineEnd c then n
    else if c = '\\' then
      let splice := max 1 (spliceLength s)
      lineLengthFrom (n + splice) (s.drop splice)
    else lineLengthFrom (n + 1) rest
termination_by s => s.length
decreasing_by
  · simp_all only [List.length_drop, List.length_cons]
    omega
  · simp

def lineCommentLength (s : List Char) : Nat :=
  if Text.startsWith "//" s then lineLengthFrom 2 (s.drop 2) else 0

def comment : Construct Kind := .firstOf [Comment.line lineCommentLength, Comment.block]

end Highlight.CFamily
