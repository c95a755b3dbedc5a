import Highlight.CFamily.Character
import Highlight.Piece.Construct

/-!
# Preprocessor directives

A directive is a hash sign and, perhaps after blanks, a name. Some directives have a header or the
name of a macro as their first operand; the rest of the line is ordinary code.
-/

namespace Highlight.CFamily

variable [Text.IdentifierClasses]

/-- The directives whose operand may be a header in angle brackets. -/
def headerDirectives : List String := ["include", "include_next", "import", "embed"]

/-- The directives whose first operand is the name of a macro. -/
def nameDirectives : List String := ["define", "undef", "ifdef", "ifndef"]

def blankLength (s : List Char) : Nat := Text.spanLength isBlank s

/-- The length of a header in angle brackets on one line. -/
def headerLength (s : List Char) : Nat :=
  if Text.startsWith "<" s then
    match Text.findIn? (fun c ↦ c == '>' || c == '\n') s with
    | some n => if Text.startsWith ">" (s.drop n) then n + 1 else 0
    | none => 0
  else 0

/-- What the directive of the given name shows of its operands. -/
def operand (name : List Char) : Construct Kind :=
  if headerDirectives.contains (String.ofList name) then
    .seq [.skip blankLength, .optional (.measured .string headerLength)]
  else if nameDirectives.contains (String.ofList name) then
    .seq [.skip blankLength, .optional (.measured .directive identifierLength)]
  else .seq []

/-- The hash sign and the name of a directive, one token where nothing stands between them. -/
def directiveMark (blanks name : List Char) : List (Piece Kind) :=
  if blanks.isEmpty then [.token .directive ('#' :: name)]
  else [.token .directive ['#'], .gap blanks] ++ Piece.shown .directive name

def directive : Construct Kind where
  read s :=
    match Text.after? "#" s with
    | none => none
    | some rest =>
      let blanks := rest.takeWhile isBlank
      let rest := rest.drop blanks.length
      let name := rest.take (identifierLength rest)
      Construct.seq [{ read := fun _ ↦ some (directiveMark blanks name) }, operand name] s

end Highlight.CFamily
