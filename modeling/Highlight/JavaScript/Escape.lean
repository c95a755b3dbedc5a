import Highlight.JavaScript.Character
import Highlight.Text.Basic
import Highlight.Text.Digit

/-!
# Escapes of scripts

An escape begins with a backslash. A malformed one still takes what was meant to be part of it, so
that it can be shown as an error.
-/

namespace Highlight.JavaScript

/-- The length of an escape, and whether it is malformed. -/
structure Escape where
  length : Nat := 0
  erroneous : Bool := false
  deriving DecidableEq, Repr, Inhabited

def hexDigitValue (c : Char) : Nat :=
  if c.isDigit then c.toNat - '0'.toNat
  else if 'a' ≤ c then c.toNat - 'a'.toNat + 10
  else c.toNat - 'A'.toNat + 10

/-- Reads on in hexadecimal digits, from the word that the digits before give. There is none at a
character that is no digit, and none where 32 bits do not hold the value. -/
def hexWordFrom? (word : UInt32) : List Char → Option UInt32
  | [] => some word
  | c :: s =>
    let value := 16 * word.toNat + hexDigitValue c
    if Text.isHexDigit c && value < UInt32.size then hexWordFrom? (.ofNat value) s else none

/-- The word of 32 bits that hexadecimal digits write, the most significant one first. A plus sign
may stand in front of them. -/
def hexWord? : List Char → Option UInt32
  | [] | ['+'] => none
  | '+' :: s => hexWordFrom? 0 s
  | s => hexWordFrom? 0 s

/-- Whether the digits give the number of a code point. -/
def isCodePoint (digits : List Char) : Bool :=
  !digits.isEmpty && digits.all Text.isHexDigit && (hexWord? digits).any (· ≤ 0x10FFFF)

/-- An escape with a fixed number of digits, by the text behind its letter. -/
def fixedEscape (digits : Nat) (after : List Char) : Escape :=
  let taken := (after.take digits).takeWhile Char.isAlphanum
  ⟨2 + taken.length, taken.length ≠ digits || !taken.all Text.isHexDigit⟩

/-- An escape whose digits stand in curly brackets, by the text behind the opening one. -/
def bracedEscape (body : List Char) : Escape :=
  match Text.findIn? (fun c ↦ c == '\x7d' || isLineTerminator c) body with
  | some n =>
    if Text.startsWith "\x7d" (body.drop n) then ⟨3 + n + 1, !isCodePoint (body.take n)⟩
    else ⟨3, true⟩
  | none => ⟨3, true⟩

/-- The escape at the front of the text; of length 0 where there is none. -/
def escape : List Char → Escape
  | '\\' :: rest@(c :: after) =>
    if c = 'x' then fixedEscape 2 after
    else if c = 'u' then
      if Text.startsWith "\x7b" after then bracedEscape (after.drop 1) else fixedEscape 4 after
    else if Text.isOctalDigit c then
      let digits := if c ≤ '3' then 3 else 2
      ⟨1 + Text.spanLength Text.isOctalDigit (rest.take digits), false⟩
    else if c = '\r' ∧ Text.startsWith "\n" after then ⟨3, false⟩
    else ⟨2, false⟩
  | ['\\'] => ⟨1, true⟩
  | _ => {}

end Highlight.JavaScript
