import Highlight.Operator

/-!
# Operators of C and C++
-/

namespace Highlight.CFamily

/-- The operators and punctuators, longest first. -/
def operators : List String := [
  "<<=", ">>=", "...", "<=>", "->*", "->", "++", "--", "<<", ">>", "<=", ">=", "==", "!=", "&&",
  "||", "*=", "/=", "%=", "+=", "-=", "&=", "^=", "|=", "##", "::", ".*", "\x7b", "\x7d", "[", "]",
  "(", ")", ";", ",", ":", ".", "?", "+", "-", "*", "/", "%", "&", "|", "^", "!", "~", "<", ">",
  "=", "#"]

/-- The length of the longest operator that the text begins with. -/
def operatorLength (s : List Char) : Nat :=
  match Operator.find? operators s with
  | some operator => operator.length
  | none => 0

end Highlight.CFamily
