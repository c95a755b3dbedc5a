import Highlight.Text.Basic
import Highlight.Text.Digit

/-!
# Numbers of scripts

A numeric literal is a radix mark with digits, or decimal digits with a fraction and an exponent.
Digits may be set off by underscores. A literal that lacks digits it needs is erroneous.
-/

namespace Highlight.JavaScript

structure NumericLiteral where
  length : Nat := 0
  radixMark : Nat := 0
  integer : Nat := 0
  /-- The point and the digits after it. -/
  fraction : Nat := 0
  /-- The exponent with its letter and its sign. -/
  exponent : Nat := 0
  suffix : Nat := 0
  /-- Digits are missing behind the radix mark or in the exponent. -/
  erroneous : Bool := false
  deriving DecidableEq, Repr, Inhabited

/-- The length of a run of digits, which begins with a digit. -/
def digitsLength (isDigit : Char → Bool) (s : List Char) : Nat :=
  Text.wordLength isDigit (fun c ↦ isDigit c || c == '_') s

/-- The digits of the radix that the text begins with a mark of. -/
def radix? : List Char → Option (Char → Bool)
  | '0' :: c :: _ =>
    if c = 'x' ∨ c = 'X' then some Text.isHexDigit
    else if c = 'o' ∨ c = 'O' then some Text.isOctalDigit
    else if c = 'b' ∨ c = 'B' then some Text.isBinaryDigit
    else none
  | _ => none

/-- A literal whose radix is marked, by the digits of the radix. -/
def radixLiteral (isDigit : Char → Bool) (s : List Char) : NumericLiteral :=
  let integer := digitsLength isDigit (s.drop 2)
  let suffix := if Text.startsWith "n" (s.drop (2 + integer)) then 1 else 0
  { length := 2 + integer + suffix, radixMark := 2, integer, suffix, erroneous := integer = 0 }

/-- A decimal literal. A lone point is none. -/
def decimalLiteral (s : List Char) : NumericLiteral :=
  let integer := digitsLength Char.isDigit s
  let rest := s.drop integer
  let digits := digitsLength Char.isDigit (rest.drop 1)
  let fraction := if Text.startsWith "." rest ∧ (integer ≠ 0 ∨ digits ≠ 0) then 1 + digits else 0
  let length := integer + fraction
  if length = 0 then {}
  else
    let rest := rest.drop fraction
    if Text.startsIn (fun c ↦ c == 'e' || c == 'E') rest then
      let sign := if Text.startsIn (fun c ↦ c == '+' || c == '-') (rest.drop 1) then 1 else 0
      let digits := digitsLength Char.isDigit (rest.drop (1 + sign))
      let exponent := 1 + sign + digits
      { length := length + exponent, integer, fraction, exponent, erroneous := digits = 0 }
    else
      let suffix := if fraction = 0 ∧ Text.startsWith "n" rest then 1 else 0
      { length := length + suffix, integer, fraction, suffix }

def numericLiteral (s : List Char) : NumericLiteral :=
  match radix? s with
  | some isDigit => radixLiteral isDigit s
  | none => decimalLiteral s

end Highlight.JavaScript
