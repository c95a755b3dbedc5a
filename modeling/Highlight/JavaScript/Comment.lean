import Highlight.Comment
import Highlight.JavaScript.Character
import Highlight.Text.Basic

/-!
# Comments of scripts

Line comments end before the next line end. A script may begin with a hashbang line.
-/

namespace Highlight.JavaScript

def restOfLine (opening : String) (s : List Char) : Nat :=
  match Text.after? opening s with
  | none => 0
  | some rest => opening.length + Text.spanLength (!isLineTerminator ·) rest

def lineCommentLength (s : List Char) : Nat := restOfLine "//" s

def hashbangLength (s : List Char) : Nat := restOfLine "#!" s

def comment : Construct Kind :=
  .firstOf [Comment.line lineCommentLength, Comment.block]

end Highlight.JavaScript
