import Highlight.JavaScript.Character
import Highlight.Text.Basic

/-!
# Regular expressions of scripts

A regular expression stands between slashes on one line, with its flags behind it. A slash in a
class or behind a backslash does not end it.
-/

namespace Highlight.JavaScript

variable [Text.IdentifierClasses]

/-- The length of a regular expression, counted on from `n` characters that were read; 0 where it is
not closed. -/
def regexLengthFrom (inClass : Bool) (n : Nat) : List Char → Nat
  | [] => 0
  | c :: s =>
    if isLineTerminator c then 0
    else if c = '\\' then
      match s with
      | [] => 0
      | d :: rest => if isLineTerminator d then 0 else regexLengthFrom inClass (n + 2) rest
    else if c = '[' then regexLengthFrom true (n + 1) s
    else if c = ']' then regexLengthFrom false (n + 1) s
    else if c = '/' ∧ !inClass then n + 1 + Text.spanLength isIdentifierPart s
    else regexLengthFrom inClass (n + 1) s

def regexLength : List Char → Nat
  | [] => 0
  | c :: s =>
    if c = '/' ∧ !Text.startsIn (fun c ↦ c == '/' || c == '*') s then regexLengthFrom false 1 s
    else 0

end Highlight.JavaScript
