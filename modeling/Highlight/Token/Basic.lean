import Highlight.Text.Basic
import Highlight.Token.Kind

/-!
# Tokens

A token is a stretch of source text with a kind. It is placed by UTF-8 bytes, which are counted by
natural numbers unless another type of offsets is given. Offsets of a fixed width wrap around where
a sum of two is too large.
-/

namespace Highlight

/-- `length` bytes of the source from byte `begin` on, shown as `kind`. -/
structure Token (ω : Type := Nat) where
  begin : ω
  length : ω
  kind : Kind
  deriving DecidableEq, Repr, Inhabited

namespace Token

def stop {ω : Type} [Add ω] (token : Token ω) : ω := token.begin + token.length

/-- The token with its offsets converted. -/
def map {ω ω' : Type} (f : ω → ω') (token : Token ω) : Token ω' :=
  ⟨f token.begin, f token.length, token.kind⟩

def text (source : List Char) (token : Token) : List Char :=
  Text.slice source token.begin token.stop

end Token

end Highlight
