import Highlight.Text.Blank

/-!
# Characters of identifiers

Which characters of ASCII begin and continue identifiers is settled. What lies beyond depends on the
version of Unicode and is left to an instance.
-/

namespace Highlight.Text

/-- The characters that have the properties XID_Start and XID_Continue, as far as they are not in
ASCII. -/
class IdentifierClasses where
  isStart : Char → Bool
  isContinue : Char → Bool
  /-- No white space is among them, nor the byte order mark. -/
  apart : ∀ c, isBlank c ∨ c = '\uFEFF' → isStart c = false ∧ isContinue c = false

variable [IdentifierClasses] {c : Char}

/-- Whether the character has the property XID_Start. -/
def isIdentifierStart (c : Char) : Bool :=
  if c.toNat < 0x80 then c.isAlpha else IdentifierClasses.isStart c

/-- Whether the character has the property XID_Continue. -/
def isIdentifierContinue (c : Char) : Bool :=
  if c.toNat < 0x80 then c.isAlphanum || c == '_' else IdentifierClasses.isContinue c

theorem isIdentifierStart_of_ascii (hc : c.toNat < 0x80) : isIdentifierStart c = c.isAlpha :=
  if_pos hc

theorem isIdentifierContinue_of_ascii (hc : c.toNat < 0x80) :
    isIdentifierContinue c = (c.isAlphanum || c == '_') :=
  if_pos hc

end Highlight.Text
