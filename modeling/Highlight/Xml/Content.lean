import Highlight.Piece.Construct
import Highlight.Reference
import Highlight.Xml.Name

/-!
# Content of XML

Comments, CDATA sections, processing instructions, references and character data.
-/

namespace Highlight.Xml

/-- The length of a comment. Two hyphens may only stand at its end. -/
def commentLength (s : List Char) : Nat :=
  match Text.after? "<!--" s with
  | none => 0
  | some body =>
    match Text.findLiteral? "--" body with
    | none => 0
    | some n => if Text.startsWith "-->" (body.drop n) then 4 + n + 3 else 0

def comment : Construct Kind where
  read s :=
    let n := commentLength s
    if n = 0 then none else some (Piece.framed .commentDelimiter .comment 4 3 (s.take n))

def cdataLength (s : List Char) : Nat :=
  match Text.after? "<![CDATA[" s with
  | none => 0
  | some body =>
    match Text.findLiteral? "]]>" body with
    | none => 0
    | some n => 9 + n + 3

/-- A CDATA section, whose inside is not shown. -/
def cdata : Construct Kind where
  read s :=
    let n := cdataLength s
    if n = 0 then none
    else
      let text := s.take n
      some ([.token .directive (text.take 9)] ++ Piece.hidden ((text.drop 9).take (n - 12)) ++
        [.token .directive (text.drop (n - 3))])

/-- What stands between the target of a processing instruction and its end: nothing, or text that
begins with white space. -/
def instructionBody : Construct Kind where
  read s :=
    match Text.findLiteral? "?>" s with
    | none => none
    | some n =>
      if n ≠ 0 ∧ spaceLength s = 0 then none else some (Piece.hidden (s.take n))

/-- A processing instruction. Every name is a target, so that an XML declaration that is not well
formed still reads as an instruction. -/
def instruction : Construct Kind :=
  .seq [
    .literal .symPunc "<?",
    .measured .directive nameLength,
    instructionBody,
    .literal .symPunc "?>"]

def referenceLength (s : List Char) : Nat := Reference.length ["&#x"] nameLength s

def reference : Construct Kind := .measured .escape referenceLength

def endsData (s : List Char) : Bool :=
  Text.startsIn (fun c ↦ c == '<' || c == '&') s || Text.startsWith "]]>" s

def dataLength (s : List Char) : Nat := (Text.find? endsData s).getD s.length

/-- Character data, which is not shown. -/
def characterData : Construct Kind := .skipSome dataLength

end Highlight.Xml
