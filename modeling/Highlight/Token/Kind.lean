/-!
# Kinds of token

The closed set of highlighting classes. A kind is known outside by a short id and by a number; both
are stable, since renderers depend on them.
-/

namespace Highlight

inductive Kind where
  /-- Text that is wrong where it stands. -/
  | error
  /-- The inside of a comment. -/
  | comment
  /-- What opens or closes a comment. -/
  | commentDelimiter
  /-- A word that structures a program. -/
  | keyword
  /-- A word that directs the flow of control. -/
  | keywordControl
  /-- A word that names a built-in type. -/
  | keywordType
  /-- A word that acts as an operator. -/
  | keywordOp
  /-- A name. -/
  | identifier
  /-- A truth value. -/
  | bool
  /-- The absent value. -/
  | null
  /-- The digits of a number. -/
  | number
  /-- The radix mark or the suffix of a number. -/
  | numberDecor
  /-- Quoted text. -/
  | string
  /-- A character written by its code or by its name. -/
  | escape
  /-- A preprocessor directive, or the mark of a declaration or an instruction in markup. -/
  | directive
  /-- Punctuation. -/
  | symPunc
  /-- An operator. -/
  | symOp
  /-- A curly bracket. -/
  | symBrace
  /-- A round bracket. -/
  | symParens
  /-- A square bracket. -/
  | symSquare
  /-- The name of a markup element. -/
  | markupTag
  /-- The name of an attribute or of a member. -/
  | markupAttr
  deriving DecidableEq, Repr, Inhabited

namespace Kind

/-- All kinds, each at the place of its number. -/
def all : Array Kind := #[
  error, comment, commentDelimiter, keyword, keywordControl, keywordType, keywordOp, identifier,
  bool, null, number, numberDecor, string, escape, directive, symPunc, symOp, symBrace, symParens,
  symSquare, markupTag, markupAttr]

def toNumber : Kind → Nat
  | error => 0
  | comment => 1
  | commentDelimiter => 2
  | keyword => 3
  | keywordControl => 4
  | keywordType => 5
  | keywordOp => 6
  | identifier => 7
  | bool => 8
  | null => 9
  | number => 10
  | numberDecor => 11
  | string => 12
  | escape => 13
  | directive => 14
  | symPunc => 15
  | symOp => 16
  | symBrace => 17
  | symParens => 18
  | symSquare => 19
  | markupTag => 20
  | markupAttr => 21

def ofNumber? (n : Nat) : Option Kind := all[n]?

def shortId : Kind → String
  | error => "err"
  | comment => "cmt"
  | commentDelimiter => "cmt_dlim"
  | keyword => "kw"
  | keywordControl => "kw_ctrl"
  | keywordType => "kw_type"
  | keywordOp => "kw_op"
  | identifier => "id"
  | bool => "bool"
  | null => "null"
  | number => "num"
  | numberDecor => "num_deco"
  | string => "str"
  | escape => "esc"
  | directive => "macro"
  | symPunc => "sym_punc"
  | symOp => "sym_op"
  | symBrace => "sym_brac"
  | symParens => "sym_par"
  | symSquare => "sym_sqr"
  | markupTag => "tag"
  | markupAttr => "attr"

def ofShortId? (id : String) : Option Kind := all.find? fun kind ↦ kind.shortId == id

theorem ofNumber?_toNumber (kind : Kind) : ofNumber? kind.toNumber = some kind := by
  cases kind <;> rfl

theorem ofShortId?_shortId (kind : Kind) : ofShortId? kind.shortId = some kind := by
  cases kind <;> decide

end Kind

def commentKinds : List Kind := [.comment, .commentDelimiter]

def operatorKinds : List Kind := [.symPunc, .symOp, .symBrace, .symParens, .symSquare]

end Highlight
