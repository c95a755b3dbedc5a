import Highlight.Text.Basic

/-!
# Numbers in JSON

A number is an optional minus sign, an integer without leading zeros, an optional fraction and an
optional exponent. A fraction or an exponent without digits does not belong to it.
-/

namespace Highlight.Json

/-- The length of an integer without sign: a lone zero, or digits that do not begin with one. -/
def integerLength : List Char → Nat
  | [] => 0
  | c :: s => if c = '0' then 1 else if c.isDigit then 1 + Text.spanLength Char.isDigit s else 0

def fractionLength (s : List Char) : Nat :=
  if Text.startsWith "." s then
    let digits := Text.spanLength Char.isDigit (s.drop 1)
    if digits = 0 then 0 else 1 + digits
  else 0

def exponentLength (s : List Char) : Nat :=
  if Text.startsIn (fun c ↦ c == 'e' || c == 'E') s then
    let sign := if Text.startsIn (fun c ↦ c == '+' || c == '-') (s.drop 1) then 1 else 0
    let digits := Text.spanLength Char.isDigit (s.drop (1 + sign))
    if digits = 0 then 0 else 1 + sign + digits
  else 0

def numberLength (s : List Char) : Nat :=
  let sign := if Text.startsWith "-" s then 1 else 0
  let integer := integerLength (s.drop sign)
  if integer = 0 then 0
  else
    let n := sign + integer
    let n := n + fractionLength (s.drop n)
    n + exponentLength (s.drop n)

end Highlight.Json
