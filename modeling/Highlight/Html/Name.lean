import Highlight.Reference
import Highlight.Text.Quoted

/-!
# Names and values in HTML

Names of tags and attributes, unquoted values and character references, all read leniently.
-/

namespace Highlight.Html

def isSpace (c : Char) : Bool :=
  c == ' ' || c == '\t' || c == '\r' || c == '\n' || c == '\x0C'

def spaceLength (s : List Char) : Nat := Text.spanLength isSpace s

def isTagNameChar (c : Char) : Bool := !isSpace c && c != '/' && c != '>' && c != '<'

/-- The length of the name of a tag, which begins with a letter. -/
def tagNameLength (s : List Char) : Nat := Text.wordLength Char.isAlpha isTagNameChar s

def isAttributeNameChar (c : Char) : Bool :=
  !isSpace c && !Text.isQuote c && c != '/' && c != '>' && c != '=' && c != '<'

def attributeNameLength (s : List Char) : Nat := Text.spanLength isAttributeNameChar s

def isUnquotedChar (c : Char) : Bool :=
  !isSpace c && !Text.isQuote c && c != '=' && c != '<' && c != '>' && c != '\x60'

def unquotedLength (s : List Char) : Nat := Text.spanLength isUnquotedChar s

/-- The length of a character reference. Its name is made of letters and digits. -/
def referenceLength (s : List Char) : Nat :=
  Reference.length ["&#x", "&#X"] (Text.spanLength Char.isAlphanum) s

end Highlight.Html
