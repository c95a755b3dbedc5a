import Highlight.Text.Basic
import Highlight.Text.Ranges

/-!
# Names in XML

White space and names by the productions of XML 1.0 (Fifth Edition).
-/

namespace Highlight.Xml

/-- The ranges of `NameStartChar` beyond ASCII. -/
def nameStartRanges : Array (Nat × Nat) := #[
  (0xC0, 0xD6), (0xD8, 0xF6), (0xF8, 0x2FF), (0x370, 0x37D), (0x37F, 0x1FFF), (0x200C, 0x200D),
  (0x2070, 0x218F), (0x2C00, 0x2FEF), (0x3001, 0xD7FF), (0xF900, 0xFDCF), (0xFDF0, 0xFFFD),
  (0x10000, 0xEFFFF)]

/-- The ranges of `NameChar` beyond ASCII that are not in `NameStartChar`. -/
def nameExtraRanges : Array (Nat × Nat) := #[(0xB7, 0xB7), (0x300, 0x36F), (0x203F, 0x2040)]

def isSpace (c : Char) : Bool := c == ' ' || c == '\t' || c == '\r' || c == '\n'

def isNameStart (c : Char) : Bool :=
  c.isAlpha || c == ':' || c == '_' || Text.inRanges nameStartRanges c

def isNameChar (c : Char) : Bool :=
  isNameStart c || c.isDigit || c == '-' || c == '.' || Text.inRanges nameExtraRanges c

def spaceLength (s : List Char) : Nat := Text.spanLength isSpace s

def nameLength (s : List Char) : Nat := Text.wordLength isNameStart isNameChar s

end Highlight.Xml
