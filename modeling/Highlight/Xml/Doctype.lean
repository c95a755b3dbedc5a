import Highlight.Xml.Content
import Highlight.Xml.Literal

/-!
# The document type declaration

The name of the root element, an external identifier and an internal subset of declarations.
-/

namespace Highlight.Xml

/-- White space and a literal whose length is measured on the text. -/
def spacedLiteral (length : List Char → Nat) : Construct Kind :=
  .seq [.skipSome spaceLength, .measured .string length]

/-- An external identifier, which white space sets off, or nothing. -/
def externalId : Construct Kind := .choose fun s ↦
  let n := spaceLength s
  let rest := s.drop n
  if n ≠ 0 ∧ Text.startsWith "SYSTEM" rest then
    .seq [
      .skip spaceLength,
      .literal .keyword "SYSTEM",
      spacedLiteral systemLiteralLength]
  else if n ≠ 0 ∧ Text.startsWith "PUBLIC" rest then
    .seq [
      .skip spaceLength,
      .literal .keyword "PUBLIC",
      spacedLiteral pubidLiteralLength,
      spacedLiteral systemLiteralLength]
  else .seq []

def parameterReferenceLength (s : List Char) : Nat :=
  if Text.startsWith "%" s then Reference.closedLength 1 (nameLength (s.drop 1)) s else 0

def parameterReference : Construct Kind := .measured .escape parameterReferenceLength

/-- Whether a character stands for itself inside a declaration: it neither ends the declaration nor
opens a literal nor, before a name, has to begin a reference. -/
def isBare : List Char → Bool
  | [] => false
  | c :: s => c != '>' && !Text.isQuote c && !(c == '%' && nameLength s != 0)

/-- The length of the name of a declaration with the `<!` before it. -/
def declarationMarkLength (s : List Char) : Nat :=
  match Text.after? "<!" s with
  | none => 0
  | some rest =>
    let n := Text.spanLength Char.isUpper rest
    if n = 0 then 0 else 2 + n

/-- What may stand inside a declaration: a literal, a reference or any other character. -/
def declarationPart : Construct Kind :=
  .firstOf [
    .measured .string systemLiteralLength,
    parameterReference,
    .skipSome fun s ↦ if isBare s then 1 else 0]

/-- A declaration. Of what is inside, literals and references are shown. -/
def markupDeclaration : Construct Kind :=
  .seq [
    .measured .directive declarationMarkLength,
    .many declarationPart,
    .literal .directive ">"]

def subsetPart : Construct Kind :=
  .firstOf [
    .skipSome spaceLength,
    comment,
    instruction,
    markupDeclaration,
    parameterReference]

/-- An internal subset in its brackets and white space, or nothing. -/
def internalSubset : Construct Kind :=
  .ifNext "[" (.seq [
    .literal .symSquare "[",
    .many subsetPart,
    .literal .symSquare "]",
    .skip spaceLength])

def doctype : Construct Kind :=
  .seq [
    .literal .directive "<!DOCTYPE",
    .skipSome spaceLength,
    .measured .markupTag nameLength,
    externalId,
    .skip spaceLength,
    internalSubset,
    .literal .directive ">"]

end Highlight.Xml
