import Highlight.Token.Basic

/-!
# The flat form

Tokens as one list of 32-bit words, three to a token: where it begins, how long it is, and the
number of its kind.
-/

namespace Highlight.Flat

/-- A number as a word, if it fits. -/
def word? (n : Nat) : Option UInt32 := if n < UInt32.size then some (UInt32.ofNat n) else none

/-- The three words of a token, if its place fits. -/
def triple? (token : Token) : Option (List UInt32) := do
  let begin ← word? token.begin
  let length ← word? token.length
  return [begin, length, UInt32.ofNat token.kind.toNumber]

/-- The words of the tokens, if all their places fit. -/
def ofTokens? (tokens : List Token) : Option (List UInt32) :=
  (tokens.mapM triple?).map List.flatten

/-- Reads words back in threes. -/
def toTokens? : List UInt32 → Option (List Token)
  | [] => some []
  | begin :: length :: kind :: words => do
    let kind ← Kind.ofNumber? kind.toNat
    let tokens ← toTokens? words
    return ⟨begin.toNat, length.toNat, kind⟩ :: tokens
  | _ => none

end Highlight.Flat
