import Highlight.Piece.Basic
import Highlight.Text.Digit

/-!
# The grammar of JSON

Which texts are JSON, said without a scanner, and how each of them falls into lexical parts. A form
of the grammar is a set of lists of pieces: the text is what the pieces cover, and their labels say
what every part of it is. Nothing is tried in any order, and nothing looks ahead: that a string
names a member is said where members are.
-/

namespace Highlight.Json.Grammar

/-- White space, which may be missing. -/
def Space (s : List Char) : Prop := ∀ c ∈ s, c = ' ' ∨ c = '\t' ∨ c = '\n' ∨ c = '\r'

def Digits (s : List Char) : Prop := s ≠ [] ∧ ∀ c ∈ s, c.isDigit

/-- A lone zero, or digits that do not begin with one. -/
inductive Integer : List Char → Prop
  | zero : Integer ['0']
  | positive {c : Char} {s : List Char} : c.isDigit → c ≠ '0' → (∀ d ∈ s, d.isDigit) →
      Integer (c :: s)

/-- A point with digits, which may be missing. -/
inductive Fraction : List Char → Prop
  | absent : Fraction []
  | mk {digits : List Char} : Digits digits → Fraction ('.' :: digits)

/-- An exponent with or without sign, which may be missing. -/
inductive Exponent : List Char → Prop
  | absent : Exponent []
  | mk {mark : Char} {sign digits : List Char} : mark = 'e' ∨ mark = 'E' →
      sign = [] ∨ sign = ['+'] ∨ sign = ['-'] → Digits digits → Exponent (mark :: (sign ++ digits))

inductive Number : List Char → Prop
  | mk {minus integer fraction exponent : List Char} : minus = [] ∨ minus = ['-'] →
      Integer integer → Fraction fraction → Exponent exponent →
        Number (minus ++ integer ++ fraction ++ exponent)

/-- A character that stands for itself in a string. -/
def IsUnescaped (c : Char) : Prop := ' ' ≤ c ∧ c ≠ '"' ∧ c ≠ '\\'

inductive Escape : List Char → Prop
  | short {c : Char} : c ∈ "\"\\/bfnrt".toList → Escape ['\\', c]
  | code {digits : List Char} : digits.length = 4 → (∀ d ∈ digits, Text.isHexDigit d) →
      Escape ('\\' :: 'u' :: digits)

/-- The parts of a string behind its opening quote or behind an escape, up to the closing quote. The
part in front of the next escape, or of the end, begins with `opening`; it is left out if nothing is
in it. -/
inductive StringParts (label : Kind) : (opening : List Char) → List (Piece Kind) → Prop
  | close {opening part : List Char} : (∀ c ∈ part, IsUnescaped c) →
      StringParts label opening (Piece.shown label (opening ++ part ++ ['"']))
  | escape {opening part escape : List Char} {rest : List (Piece Kind)} :
      (∀ c ∈ part, IsUnescaped c) → Escape escape → StringParts label [] rest →
        StringParts label opening
          (Piece.shown label (opening ++ part) ++ .token .escape escape :: rest)

/-- A string whose parts have the label. The quotes belong to the first and to the last of them. -/
def String (label : Kind) (pieces : List (Piece Kind)) : Prop := StringParts label ['"'] pieces

/-- A structural character in white space. -/
inductive Structural (c : Char) (label : Kind) : List (Piece Kind) → Prop
  | mk {before behind : List Char} : Space before → Space behind →
      Structural c label (Piece.hidden before ++ .token label [c] :: Piece.hidden behind)

inductive LiteralName : List (Piece Kind) → Prop
  | false : LiteralName [.token .bool "false".toList]
  | null : LiteralName [.token .null "null".toList]
  | true : LiteralName [.token .bool "true".toList]

mutual

inductive Value : List (Piece Kind) → Prop
  | literalName {name : List (Piece Kind)} : LiteralName name → Value name
  | number {s : List Char} : Number s → Value [.token .number s]
  | string {parts : List (Piece Kind)} : String .string parts → Value parts
  | emptyArray {opening closing : List (Piece Kind)} : Structural '[' .symSquare opening →
      Structural ']' .symSquare closing → Value (opening ++ closing)
  | array {opening elements closing : List (Piece Kind)} : Structural '[' .symSquare opening →
      Elements elements → Structural ']' .symSquare closing → Value (opening ++ elements ++ closing)
  | emptyObject {opening closing : List (Piece Kind)} : Structural '\x7b' .symBrace opening →
      Structural '\x7d' .symBrace closing → Value (opening ++ closing)
  | object {opening members closing : List (Piece Kind)} : Structural '\x7b' .symBrace opening →
      Members members → Structural '\x7d' .symBrace closing → Value (opening ++ members ++ closing)

inductive Elements : List (Piece Kind) → Prop
  | last {value : List (Piece Kind)} : Value value → Elements value
  | cons {value separator elements : List (Piece Kind)} : Value value →
      Structural ',' .symPunc separator → Elements elements →
        Elements (value ++ separator ++ elements)

inductive Members : List (Piece Kind) → Prop
  | last {member : List (Piece Kind)} : Member member → Members member
  | cons {member separator members : List (Piece Kind)} : Member member →
      Structural ',' .symPunc separator → Members members → Members (member ++ separator ++ members)

inductive Member : List (Piece Kind) → Prop
  | mk {name separator value : List (Piece Kind)} : String .markupAttr name →
      Structural ':' .symPunc separator → Value value → Member (name ++ separator ++ value)

end

/-- A JSON text: a value in white space. -/
inductive Document : List (Piece Kind) → Prop
  | mk {before behind : List Char} {value : List (Piece Kind)} : Space before → Value value →
      Space behind → Document (Piece.hidden before ++ value ++ Piece.hidden behind)

end Highlight.Json.Grammar
