import Highlight.Piece.Literal
import Highlight.Text.Digit
import Highlight.Text.Quoted

/-!
# Literals of C and C++

Character and string literals with their encoding marks and escapes, and the raw strings of C++.
-/

namespace Highlight.CFamily

/-- The length of a code in curly brackets, brackets included, or of the opening bracket alone where
none closes it on the line. -/
def bracedCodeLength (s : List Char) : Nat :=
  match Text.findIn? (fun c ↦ c == '\x7d' || c == '\n') (s.drop 1) with
  | some n => if Text.startsWith "\x7d" (s.drop (1 + n)) then n + 2 else 1
  | none => 1

/-- The length of an escape. One that is not known has a single character behind its backslash. -/
def escapeLength : List Char → Nat
  | '\\' :: rest@(c :: after) =>
    if Text.isOctalDigit c then 1 + Text.spanLength Text.isOctalDigit (rest.take 3)
    else if (c == 'x' || c == 'u' || c == 'o' || c == 'N') && Text.startsWith "\x7b" after then
      2 + bracedCodeLength after
    else if c = 'x' then 2 + Text.spanLength Text.isHexDigit after
    else if c = 'u' then 2 + Text.spanLength Text.isHexDigit (after.take 4)
    else if c = 'U' then 2 + Text.spanLength Text.isHexDigit (after.take 8)
    else if c = '\r' ∧ Text.startsWith "\n" after then 3
    else 2
  | ['\\'] => 1
  | _ => 0

/-- The marks of encodings that may stand before a quote. -/
def encodingMarks : List String := ["u8", "u", "U", "L"]

/-- The length of an encoding mark that a quote follows. -/
def encodingMarkLength (s : List Char) : Nat :=
  match encodingMarks.find? fun mark ↦
      Text.startsWith mark s && Text.startsIn Text.isQuote (s.drop mark.length) with
  | some mark => mark.length
  | none => 0

/-- What a literal in the given quotes finds where it stands. It ends at the end of its line at the
latest. -/
def literalTurn (quote : Char) : List Char → Turn Kind
  | [] => .close 0
  | s@(c :: _) =>
    if c = '\n' ∨ c = '\r' then .close 0
    else if c = quote then .close 1
    else if c = '\\' then .aside [.token .escape (s.take (escapeLength s))]
    else .plain

def literal : Construct Kind where
  read s :=
    let n := encodingMarkLength s
    match s.drop n with
    | quote :: _ =>
      if Text.isQuote quote then Construct.parts .string (n + 1) (literalTurn quote) s else none
    | [] => none

def rawOpenings : List String := ["u8R\"", "uR\"", "UR\"", "LR\"", "R\""]

def isControl (c : Char) : Bool := c < ' ' || ('\x7F' ≤ c && c ≤ '\u009F')

/-- A character that may stand in the delimiter of a raw string. -/
def isDelimiterChar (c : Char) : Bool :=
  c != '(' && c != ')' && c != '\\' && c != ' ' && !isControl c

/-- The number of bytes that the delimiter of a raw string may have. -/
def delimiterLimit : Nat := 16

/-- The length of a raw string: its delimiter, which stands before the opening bracket, stands again
between the closing bracket and the quote. -/
def rawStringLength (s : List Char) : Nat :=
  match rawOpenings.find? (Text.startsWith · s) with
  | none => 0
  | some opening =>
    let rest := s.drop opening.length
    let delimiter := rest.takeWhile isDelimiterChar
    let body := rest.drop delimiter.length
    if delimiterLimit < Text.byteLength delimiter || !Text.startsWith "(" body then 0
    else
      let closing := [')'] ++ delimiter ++ ['"']
      match Text.find? closing.isPrefixOf (body.drop 1) with
      | some n => opening.length + delimiter.length + 1 + n + closing.length
      | none => 0

def rawString : Construct Kind := .measured .string rawStringLength

end Highlight.CFamily
