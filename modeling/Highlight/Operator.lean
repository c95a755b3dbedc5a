import Highlight.Text.Basic
import Highlight.Token.Kind

/-!
# Operators

Operators and punctuators are listed longest first, so that the first one that fits is the longest.
-/

namespace Highlight.Operator

/-- The first operator of the list that the text begins with. -/
def find? (operators : List String) (s : List Char) : Option String :=
  operators.find? (Text.startsWith · s)

/-- The kind of an operator: brackets and separators have kinds of their own. -/
def kind (operator : String) : Kind :=
  if ["\x7b", "\x7d"].contains operator then .symBrace
  else if ["(", ")"].contains operator then .symParens
  else if ["[", "]"].contains operator then .symSquare
  else if [";", ",", ":"].contains operator then .symPunc
  else .symOp

end Highlight.Operator
