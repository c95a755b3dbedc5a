import Highlight.Text.Basic
import Highlight.Text.Identifier

/-!
# Characters of C and C++

White space, line splices and identifiers.
-/

namespace Highlight.CFamily

variable [Text.IdentifierClasses]

def isLineEnd (c : Char) : Bool := c == '\n' || c == '\r'

/-- White space within a line. -/
def isBlank (c : Char) : Bool := c == ' ' || c == '\t' || c == '\x0B' || c == '\x0C'

def isSpace (c : Char) : Bool := isBlank c || isLineEnd c

/-- The length of a line splice, a backslash at the end of a line together with that end. -/
def spliceLength (s : List Char) : Nat :=
  if Text.startsWith "\\\r\n" s then 3
  else if Text.startsWith "\\\n" s || Text.startsWith "\\\r" s then 2
  else 0

def isIdentifierStart (c : Char) : Bool := c == '_' || Text.isIdentifierStart c

def isIdentifierPart (c : Char) : Bool := c == '_' || Text.isIdentifierContinue c

def identifierLength (s : List Char) : Nat := Text.wordLength isIdentifierStart isIdentifierPart s

end Highlight.CFamily
