import Highlight.JavaScript.Element
import Highlight.JavaScript.Keyword
import Highlight.JavaScript.Literal
import Highlight.JavaScript.Operator
import Highlight.JavaScript.Regex

/-!
# Reading scripts

Whether a slash begins a regular expression and whether a `<` begins an element depends on what
stands before. Code embedded in templates and elements is read like a script of its own, down to a
limited number of levels. A character that begins nothing is an error, so the whole text is read.
-/

namespace Highlight.JavaScript

variable [Text.IdentifierClasses]

/-- What the items before a place tell about it. White space and comments do not count. -/
structure Position where
  /-- An expression may start here. -/
  expression : Bool := true
  /-- The name of a member is due, so that no word is a keyword. -/
  member : Bool := false
  deriving DecidableEq, Repr, Inhabited

/-- The position behind something that ends an expression. -/
def Position.operand : Position := { expression := false }

def regex : Construct Kind := .measured .string regexLength

def privateNameLength (s : List Char) : Nat :=
  if Text.startsWith "#" s then
    let n := identifierLength (s.drop 1)
    if n = 0 then 0 else 1 + n
  else 0

def expressionAfterWord (kind : Kind) (name : List Char) : Bool :=
  match kind with
  | .identifier | .bool | .null => false
  | _ => name != "this".toList && name != "super".toList

def word (member : Bool) (s : List Char) : Option (List (Piece Kind) × Position) :=
  let name := s.take (identifierLength s)
  let kind := if member then .identifier else (keyword? name).getD .identifier
  if name.isEmpty then none
  else some ([.token kind name], { expression := expressionAfterWord kind name })

/-- Whether an expression may start behind an operator that stands where `expression` says. -/
def expressionAfterOperator (expression : Bool) (op : String) : Bool :=
  if op = ")" ∨ op = "]" then false
  else if op = "++" ∨ op = "--" then expression
  else true

def operator (expression : Bool) (s : List Char) : Option (List (Piece Kind) × Position) := do
  let op ← operator? s
  return ([.token (Operator.kind op) op.toList], {
    expression := expressionAfterOperator expression op
    member := op == "." || op == "?." })

def junk : Construct Kind := .measured .error fun s ↦ (s.take 1).length

/-- Something that ends an expression. -/
def operand (embed : List Char → List (Piece Kind)) (strict expression : Bool) : Construct Kind :=
  .firstOf [
    string,
    template embed,
    number,
    .onlyIf expression regex,
    .onlyIf (expression && !strict) (element embed),
    .measured .identifier privateNameLength]

/-- Reads the next item at a position and says what it tells about the place behind it. -/
def item (embed : List Char → List (Piece Kind)) (strict : Bool) (position : Position)
    (s : List Char) : Option (List (Piece Kind) × Position) :=
  (Construct.skipSome (Text.spanLength isSpace) s).map (·, position) <|>
  (comment s).map (·, position) <|>
  (operand embed strict position.expression s).map (·, .operand) <|>
  word position.member s <|>
  operator position.expression s <|>
  (junk s).map (·, ({} : Position))

/-- The pieces of a script that `levels` more levels of embedded code may stand in. Code that stands
too deep is not shown. -/
def scanLevels (strict : Bool) : (levels : Nat) → List Char → List (Piece Kind)
  | 0, s => Piece.hidden s
  | levels + 1, s => run (item (scanLevels strict levels) strict) {} s

/-- The number of scripts that may stand in each other, the outermost one included. -/
def levelLimit : Nat := 257

/-- The pieces of a script, which may begin with a hashbang line. -/
def scan (strict : Bool) (s : List Char) : List (Piece Kind) :=
  let n := hashbangLength s
  Comment.linePieces (s.take n) ++ scanLevels strict levelLimit (s.drop n)

end Highlight.JavaScript
