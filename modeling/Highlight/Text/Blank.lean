import Highlight.Text.Ranges

/-!
# Blanks

The characters of the Unicode property White_Space.
-/

namespace Highlight.Text

/-- The ranges of the property White_Space. -/
def blanks : Array (Nat × Nat) := #[
  (0x9, 0xD), (0x20, 0x20), (0x85, 0x85), (0xA0, 0xA0), (0x1680, 0x1680), (0x2000, 0x200A),
  (0x2028, 0x2029), (0x202F, 0x202F), (0x205F, 0x205F), (0x3000, 0x3000)]

def isBlank (c : Char) : Bool := inRanges blanks c

end Highlight.Text
