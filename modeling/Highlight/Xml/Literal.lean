import Highlight.Text.Quoted

/-!
# Literals in XML declarations

The values that the XML declaration and the document type declaration admit.
-/

namespace Highlight.Xml

/-- The length of a version number: `1.` and digits. -/
def versionLength (s : List Char) : Nat :=
  match Text.after? "1." s with
  | none => 0
  | some rest =>
    let digits := Text.spanLength Char.isDigit rest
    if digits = 0 then 0 else 2 + digits

def isEncodingChar (c : Char) : Bool := c.isAlphanum || c == '.' || c == '_' || c == '-'

def encodingLength (s : List Char) : Nat := Text.wordLength Char.isAlpha isEncodingChar s

def standaloneLength (s : List Char) : Nat :=
  if Text.startsWith "yes" s then 3 else if Text.startsWith "no" s then 2 else 0

def systemLiteralLength (s : List Char) : Nat := Text.quotedLength s

def isPubidChar (c : Char) : Bool :=
  c == ' ' || c == '\r' || c == '\n' || c.isAlphanum || "-'()+,./:=?;!*#@$_%".toList.contains c

def pubidLiteralLength : List Char → Nat
  | [] => 0
  | quote :: s =>
    if Text.isQuote quote then
      let body := Text.spanLength (fun c ↦ c != quote && isPubidChar c) s
      if Text.startsIn (· == quote) (s.drop body) then body + 2 else 0
    else 0

end Highlight.Xml
