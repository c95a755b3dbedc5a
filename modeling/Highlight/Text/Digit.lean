/-!
# Digits

The digits of the bases that literals are written in. Decimal digits, letters and both together are
the ASCII classes of the core library.
-/

namespace Highlight.Text

def isHexDigit (c : Char) : Bool :=
  c.isDigit || ('a' ≤ c && c ≤ 'f') || ('A' ≤ c && c ≤ 'F')

def isOctalDigit (c : Char) : Bool := '0' ≤ c && c ≤ '7'

def isBinaryDigit (c : Char) : Bool := c == '0' || c == '1'

end Highlight.Text
