import Highlight.Text.Basic

/-!
# Quoted text

Text between two equal quotes, single or double, with no way to write that quote inside.
-/

namespace Highlight.Text

def isQuote (c : Char) : Bool := c == '"' || c == '\''

/-- The length of a quoted text, both quotes included; 0 where it is not closed. -/
def quotedLength : List Char → Nat
  | [] => 0
  | quote :: s =>
    if isQuote quote then
      match findIn? (· == quote) s with
      | some n => n + 2
      | none => 0
    else 0

end Highlight.Text
