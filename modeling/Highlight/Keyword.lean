import Highlight.Search
import Highlight.Token.Kind

/-!
# Keyword tables

The words of a language that have a kind of their own, in ascending order.
-/

namespace Highlight

/-- An ascending table of words and their kinds. -/
abbrev Keywords := Array (String × Kind)

def Keywords.kind? (table : Keywords) (word : List Char) : Option Kind :=
  (Search.find? (fun entry ↦ compare entry.1 (String.ofList word)) table).map Prod.snd

end Highlight
