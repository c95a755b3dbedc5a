/-!
# Extents

How far something reaches that ought to be closed but need not be.
-/

namespace Highlight.Text

/-- A number of characters, and whether what they hold is closed; nothing at all has length 0. -/
structure Extent where
  length : Nat := 0
  terminated : Bool := false
  deriving DecidableEq, Repr, Inhabited

end Highlight.Text
