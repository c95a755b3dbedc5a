/-!
# Options

What a caller may choose about a scan.
-/

namespace Highlight

structure Options where
  /-- Touching tokens of one kind are merged as they are reported. -/
  coalescing : Bool := false
  /-- Only the canonical grammar is read: no extension keywords, no markup in scripts, no comments
  in data. -/
  strict : Bool := false
  deriving DecidableEq, Repr, Inhabited

end Highlight
