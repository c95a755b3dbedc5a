import Highlight.Operator

/-!
# Operators of scripts
-/

namespace Highlight.JavaScript

/-- The operators and punctuators, longest first. -/
def operators : List String := [
  ">>>=", "===", "!==", "**=", "<<=", ">>=", ">>>", "...", "&&=", "||=", "??=", "=>", "==", "!=",
  "<=", ">=", "&&", "||", "??", "?.", "++", "--", "+=", "-=", "*=", "/=", "%=", "&=", "|=", "^=",
  "<<", ">>", "**", "\x7b", "\x7d", "(", ")", "[", "]", ";", ",", "<", ">", "+", "-", "*", "/",
  "%", "&", "|", "^", "!", "~", "?", ":", "=", ".", "@"]

/-- The operator at the front of the text: the longest that fits, but a question mark before a
fraction without integer part is a condition and not a chain. -/
def operator? (s : List Char) : Option String := do
  let operator ← Operator.find? operators s
  if operator == "?." && Text.startsIn Char.isDigit (s.drop 2) then some "?" else some operator

def operatorLength (s : List Char) : Nat :=
  match operator? s with
  | some operator => operator.length
  | none => 0

end Highlight.JavaScript
