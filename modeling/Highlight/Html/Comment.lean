import Highlight.Piece.Construct

/-!
# Comments in HTML

A comment need not be closed: it then runs to the end of the text. It may also be closed at once,
by `<!-->` or `<!--->`.
-/

namespace Highlight.Html

structure CommentExtent where
  length : Nat := 0
  /-- The comment is closed by its own opening and has no inside. -/
  abrupt : Bool := false
  terminated : Bool := false
  deriving DecidableEq, Repr

/-- How far a comment reaches. -/
def commentExtent (s : List Char) : CommentExtent :=
  match Text.after? "<!--" s with
  | none => {}
  | some body =>
    if Text.startsWith ">" body then ⟨5, true, true⟩
    else if Text.startsWith "->" body then ⟨6, true, true⟩
    else
      match Text.findLiteral? "-->" body with
      | some n => ⟨4 + n + 3, false, true⟩
      | none => ⟨s.length, false, false⟩

def comment : Construct Kind where
  read s :=
    let extent := commentExtent s
    let text := s.take extent.length
    if extent.length = 0 then none
    else if extent.abrupt then some [.token .commentDelimiter text]
    else
      some (Piece.framed .commentDelimiter .comment 4 (if extent.terminated then 3 else 0) text)

end Highlight.Html
