import Highlight.JavaScript.Comment
import Highlight.Json.Literal
import Highlight.Json.Number

/-!
# Reading JSON

A JSON text is read item by item; whatever is no item is an error up to the next place where one
could start, so the whole text is read. Outside strict mode comments are items too.
-/

namespace Highlight.Json

variable [Text.IdentifierClasses]

def isSpace (c : Char) : Bool := c == ' ' || c == '\t' || c == '\n' || c == '\r'

def punctuation? (c : Char) : Option Kind :=
  if c = '\x7b' ∨ c = '\x7d' then some .symBrace
  else if c = '[' ∨ c = ']' then some .symSquare
  else if c = ',' ∨ c = ':' then some .symPunc
  else none

/-- The names with a meaning of their own. -/
def literalNames : List (String × Kind) := [("true", .bool), ("false", .bool), ("null", .null)]

/-- The length and the kind of a literal name that no further word character follows. -/
def literalName? (s : List Char) : Option (Nat × Kind) := do
  let (name, kind) ← literalNames.find? fun (name, _) ↦ Text.startsWith name s
  if Text.startsIn JavaScript.isIdentifierPart (s.drop name.length) then none
  else some (name.length, kind)

/-- A string is the name of a member if it is closed and the next character that is not white space
is a colon. -/
def stringKind (terminated : Bool) (after : List Char) : Kind :=
  if terminated && Text.startsWith ":" (after.drop (Text.spanLength isSpace after)) then
    .markupAttr
  else .string

/-- A string or the name of a member. -/
def string : Construct Kind where
  read s :=
    let extent := stringExtent s
    if extent.length = 0 then none
    else
      let kind := stringKind extent.terminated (s.drop extent.length)
      some (stringParts kind extent.length s)

def literalName : Construct Kind where
  read s := do
    let (n, kind) ← literalName? s
    return [.token kind (s.take n)]

def punctuation : Construct Kind where
  read s := do
    let c ← s.head?
    let kind ← punctuation? c
    return [.token kind [c]]

/-- A character at which no item could start. -/
def isJunk (c : Char) : Bool := !isSpace c && (punctuation? c).isNone && c != '"'

/-- The length of what is no item: up to the next white space, structural character or quote, but at
least the first character. -/
def junkLength : List Char → Nat
  | [] => 0
  | s@(_ :: _) => max 1 (Text.spanLength isJunk s)

def item (strict : Bool) : Construct Kind :=
  .firstOf [
    .skipSome (Text.spanLength isSpace),
    .onlyIf (!strict) JavaScript.comment,
    string,
    .measured .number numberLength,
    literalName,
    punctuation,
    .measured .error junkLength]

def scan (strict : Bool) (s : List Char) : List (Piece Kind) := (item strict).repeated s

end Highlight.Json
