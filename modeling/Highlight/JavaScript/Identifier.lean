import Highlight.JavaScript.Character
import Highlight.Text.Basic

/-!
# Identifiers of scripts

In markup an identifier may also contain hyphens.
-/

namespace Highlight.JavaScript

variable [Text.IdentifierClasses]

def identifierLength (s : List Char) : Nat := Text.wordLength isIdentifierStart isIdentifierPart s

def markupIdentifierLength (s : List Char) : Nat :=
  Text.wordLength isIdentifierStart (fun c ↦ isIdentifierPart c || c == '-') s

end Highlight.JavaScript
