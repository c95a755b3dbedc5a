import Highlight.Operator

/-!
# Operators at the front of a text
-/

namespace Highlight.Operator

/-- An operator that is found is one of the list and stands at the front of the text. -/
theorem prefix_of_find? {operators : List String} {s : List Char} {op : String}
    (h : find? operators s = some op) : op ∈ operators ∧ op.toList <+: s := by
  unfold find? at h
  have hstart : Text.startsWith op s := List.find?_some (p := fun o ↦ Text.startsWith o s) h
  exact ⟨List.mem_of_find?_eq_some h, Text.startsWith_iff.1 hstart⟩

end Highlight.Operator
