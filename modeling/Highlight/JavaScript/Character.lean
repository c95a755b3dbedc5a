import Highlight.Text.Blank
import Highlight.Text.Identifier

/-!
# Characters of scripts

White space, line ends and the characters of identifiers as ECMAScript has them.
-/

namespace Highlight.JavaScript

variable [Text.IdentifierClasses]

def isLineTerminator (c : Char) : Bool :=
  c == '\n' || c == '\r' || c == '\u2028' || c == '\u2029'

/-- White space, line ends included. -/
def isSpace (c : Char) : Bool :=
  c == '\t' || c == '\x0B' || c == '\x0C' || c == ' ' || c == '\u00A0' || c == '\uFEFF' ||
    isLineTerminator c || ('\x7F' < c && Text.isBlank c)

def isIdentifierStart (c : Char) : Bool := c == '$' || c == '_' || Text.isIdentifierStart c

/-- A character that may continue an identifier, among them the zero-width joiners. -/
def isIdentifierPart (c : Char) : Bool :=
  c == '$' || c == '_' || c == '\u200C' || c == '\u200D' || Text.isIdentifierContinue c

end Highlight.JavaScript
