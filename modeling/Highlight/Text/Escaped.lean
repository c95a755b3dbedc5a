import Highlight.Text.GraphemeExtend
import Highlight.Text.Printable

/-!
# Escaped text

Text written so that it stays on one line and every character can be made out. Two forms are in use:
a quoted form for messages, and a plain form for listings.
-/

namespace Highlight.Text

def hexDigits (n : Nat) : List Char := Nat.toDigits 16 n

def codePointEscape (c : Char) : List Char := "\\u\x7b".toList ++ hexDigits c.toNat ++ ['\x7d']

/-- A character in escaped text. `quotes` are the quotes that are escaped, and `combining` says
whether characters drawn onto the one before are. -/
def escapeChar (quotes : List Char) (combining : Bool) (c : Char) : List Char :=
  if c = '\x00' then ['\\', '0']
  else if c = '\t' then ['\\', 't']
  else if c = '\r' then ['\\', 'r']
  else if c = '\n' then ['\\', 'n']
  else if c = '\\' ∨ c ∈ quotes then ['\\', c]
  else if (combining && isCombining c) || !isPrintable c then codePointEscape c
  else [c]

/-- The plain form: both quotes are escaped, and a character drawn onto the one before only where
there is none before it. -/
def escaped : List Char → List Char
  | [] => []
  | c :: s => escapeChar ['"', '\''] true c ++ s.flatMap (escapeChar ['"', '\''] false)

def quoted (s : List Char) : List Char := ['"'] ++ s.flatMap (escapeChar ['"'] true) ++ ['"']

end Highlight.Text
