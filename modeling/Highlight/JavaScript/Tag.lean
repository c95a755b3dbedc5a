import Highlight.JavaScript.Braced
import Highlight.JavaScript.Identifier

/-!
# Tags in scripts

A tag of markup in a script opens, closes or is complete in itself, and may have no name at all.
White space and comments may stand between any two of its parts.
-/

namespace Highlight.JavaScript

variable [Text.IdentifierClasses]

inductive TagKind where
  | opening
  | closing
  | selfClosing
  | fragmentOpening
  | fragmentClosing
  deriving DecidableEq, Repr, Inhabited

namespace TagKind

def opens : TagKind → Bool
  | opening | fragmentOpening => true
  | _ => false

def closes : TagKind → Bool
  | closing | fragmentClosing => true
  | _ => false

end TagKind

inductive TagPart where
  | punctuation
  | tagName
  | attributeName
  | string
  | comment
  /-- Code in curly brackets, brackets included. -/
  | code
  deriving DecidableEq, Repr

def closedCommentLength (s : List Char) : Nat :=
  let comment := Comment.blockExtent s
  if comment.terminated then comment.length else 0

def triviaPart : Construct TagPart :=
  .firstOf [
    .skipSome (Text.spanLength isSpace),
    .measured .comment lineCommentLength,
    .measured .comment closedCommentLength]

def trivia : Construct TagPart := .many triviaPart

/-- The length of a name with the local name that a colon sets off; 0 where the local name is
missing. Without a colon `tail` gives the length of what may follow instead, if that is right. -/
def qualifiedLength (tail : List Char → Option Nat) (s : List Char) : Nat :=
  let n := markupIdentifierLength s
  let rest := s.drop n
  if n = 0 then 0
  else if Text.startsWith ":" rest then
    let m := markupIdentifierLength (rest.drop 1)
    if m = 0 then 0 else n + 1 + m
  else
    match tail rest with
    | some m => n + m
    | none => 0

/-- The length of the members that points set off, counted on from `n`, if none is missing. -/
def membersLengthFrom (n : Nat) (s : List Char) : Option Nat :=
  match s with
  | [] => some n
  | s@(_ :: rest) =>
    if Text.startsWith "." s then
      let m := identifierLength rest
      if m = 0 then none else membersLengthFrom (n + 1 + m) (rest.drop m)
    else some n
termination_by s.length
decreasing_by
  simp only [List.length_drop, List.length_cons]
  omega

def tagNameLength (s : List Char) : Nat := qualifiedLength (membersLengthFrom 0) s

def attributeNameLength (s : List Char) : Nat := qualifiedLength (fun _ ↦ some 0) s

def attributeValue : Construct TagPart :=
  .firstOf [.measured .string Text.quotedLength, .measured .code bracedLength]

/-- An attribute, or code that stands for several. -/
def tagAttribute : Construct TagPart :=
  .firstOf [
    .measured .code bracedLength,
    .seq [
      .measured .attributeName attributeNameLength,
      trivia,
      .ifNext "=" (.seq [.skipLiteral "=", trivia, attributeValue])]]

/-- A literal of punctuation. -/
def mark (lit : String) : Construct TagPart := .literal .punctuation lit

def tagName : Construct TagPart := .measured .tagName tagNameLength

def spacedAttribute : Construct TagPart := .seq [trivia, tagAttribute]

def tagAttributes : Construct TagPart := .many spacedAttribute

/-- The forms of a tag that opens an element or is one. -/
def openingForms : List (TagKind × List (Construct TagPart)) := [
  (.fragmentOpening, [mark "<", trivia, mark ">"]),
  (.opening, [mark "<", trivia, tagName, tagAttributes, trivia, mark ">"]),
  (.selfClosing, [mark "<", trivia, tagName, tagAttributes, trivia, mark "/>"])]

def closingForms (opening : List (Construct TagPart)) :
    List (TagKind × List (Construct TagPart)) := [
  (.fragmentClosing, opening ++ [trivia, mark ">"]),
  (.closing, opening ++ [trivia, tagName, trivia, mark ">"])]

/-- The forms that a tag at the front of the text may have. The slash of a closing tag may stand
apart from its bracket, but two slashes there are no comment. -/
def tagForms (s : List Char) : List (TagKind × List (Construct TagPart)) :=
  if Text.startsWith "</" s then closingForms [mark "</"]
  else openingForms ++ closingForms [mark "<", trivia, mark "/"]

/-- The tag at the front of the text and its parts. -/
def tag? (s : List Char) : Option (TagKind × List (Piece TagPart)) :=
  (tagForms s).findSome? fun (kind, form) ↦ (Construct.seq form s).map (kind, ·)

end Highlight.JavaScript
