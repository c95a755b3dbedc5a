import Highlight.Text.Basic

/-!
# Numbers of C and C++

Preprocessing numbers: a digit, perhaps behind a point, and everything that may follow it: letters,
digits, underscores, points, exponents with their signs, and digits set off by a single quote.
-/

namespace Highlight.CFamily

/-- A letter that a sign may follow. -/
def isExponentMark (c : Char) : Bool := c == 'e' || c == 'E' || c == 'p' || c == 'P'

def isSign (c : Char) : Bool := c == '+' || c == '-'

def isWordChar (c : Char) : Bool := c.isAlphanum || c == '_'

/-- Counts on from `n` to the end of a number. -/
def numberLengthFrom (n : Nat) : List Char → Nat
  | [] => n
  | c :: s =>
    if isExponentMark c && Text.startsIn isSign s then numberLengthFrom (n + 2) (s.drop 1)
    else if isWordChar c || c == '.' then numberLengthFrom (n + 1) s
    else if c == '\'' && Text.startsIn isWordChar s then numberLengthFrom (n + 2) (s.drop 1)
    else n
termination_by s => s.length
decreasing_by
  · simp only [List.length_drop, List.length_cons]
    omega
  · simp
  · simp only [List.length_drop, List.length_cons]
    omega

def numberLength : List Char → Nat
  | [] => 0
  | c :: s =>
    if c.isDigit || (c == '.' && Text.startsIn Char.isDigit s) then numberLengthFrom 1 s else 0

end Highlight.CFamily
