import Highlight.Run

/-!
# Highlighted sources

The tokens of one source on their own, with the language in which it was read. They are handed out
as records, which give kinds by their short ids.
-/

namespace Highlight

variable [Text.IdentifierClasses]

/-- A source that was read to its end. -/
structure Highlighted where
  language : Language
  tokens : List Token
  deriving DecidableEq, Repr

/-- Reads a source on its own in the language that a selector names. -/
def Highlighted.ofSource (selector : String) (options : Options) (source : List Char) :
    Except HighlightError Highlighted := do
  let language ← Language.select selector
  let (sink, result) := highlight language options source .empty
  result
  return ⟨language, sink.tokens.toList⟩

/-- A token as it is handed out. -/
structure Record where
  begin : Nat
  length : Nat
  id : String
  deriving DecidableEq, Repr

def Token.record (token : Token) : Record := ⟨token.begin, token.length, token.kind.shortId⟩

/-- The token of a record, if its id is that of a kind. -/
def Record.token? (record : Record) : Option Token :=
  (Kind.ofShortId? record.id).map (⟨record.begin, record.length, ·⟩)

def Highlighted.records (highlighted : Highlighted) : List Record :=
  highlighted.tokens.map Token.record

end Highlight
