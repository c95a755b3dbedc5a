import Highlight.Text.Basic
import Highlight.Text.Digit

/-!
# References

A reference stands for a character, which it gives by its code or by a name, and ends with a
semicolon. Markup languages differ in how a hexadecimal code is marked and in what a name is.
-/

namespace Highlight.Reference

/-- The length of an opening, a body and a semicolon, where the text goes on so and the body is not
empty; else 0. -/
def closedLength (opening body : Nat) (s : List Char) : Nat :=
  if body = 0 then 0
  else if Text.startsWith ";" (s.drop (opening + body)) then opening + body + 1
  else 0

/-- The length of a reference. Each of `hexMarks`, three characters long, opens a hexadecimal
code. -/
def length (hexMarks : List String) (nameLength : List Char → Nat) (s : List Char) : Nat :=
  if hexMarks.any (Text.startsWith · s) then
    closedLength 3 (Text.spanLength Text.isHexDigit (s.drop 3)) s
  else if Text.startsWith "&#" s then
    closedLength 2 (Text.spanLength Char.isDigit (s.drop 2)) s
  else if Text.startsWith "&" s then
    closedLength 1 (nameLength (s.drop 1)) s
  else 0

end Highlight.Reference
