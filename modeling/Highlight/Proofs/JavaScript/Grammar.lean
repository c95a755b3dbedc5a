import Highlight.JavaScript.Character
import Highlight.Text.Quoted

/-!
# The grammar of code in brackets

Which texts are code whose brackets balance, said without a stack: code contains items, an item may
be code or a template, and a template may contain code. A form is a set of texts, and nothing is
tried in any order. Only three forms look at what stands behind them: a line comment is there up to
the end of its line, a slash by itself begins no comment, and a dollar sign by itself no
substitution.
-/

namespace Highlight.JavaScript.Grammar

/-- A string behind its opening quote, up to the first quote that no backslash protects. -/
inductive QuotedRest (quote : Char) : List Char → Prop
  | close : QuotedRest quote [quote]
  | escaped {c : Char} {s : List Char} : QuotedRest quote s → QuotedRest quote ('\\' :: c :: s)
  | plain {c : Char} {s : List Char} : c ≠ quote → c ≠ '\\' → QuotedRest quote s →
      QuotedRest quote (c :: s)

/-- A string, which may go over several lines. -/
inductive Quoted : List Char → Prop
  | mk {quote : Char} {s : List Char} : Text.isQuote quote → QuotedRest quote s →
      Quoted (quote :: s)

/-- A line comment without the end of its line. -/
inductive LineComment : List Char → Prop
  | mk {body : List Char} : (∀ c ∈ body, isLineTerminator c = false) →
      LineComment ("//".toList ++ body)

/-- A block comment, which the first star and slash behind its opening end. -/
inductive BlockComment : List Char → Prop
  | mk {body : List Char} : ¬ "*/".toList <:+: body ++ ['*'] →
      BlockComment ("/*".toList ++ body ++ "*/".toList)

/-- What stands in code and is no bracket: a string, a comment or a single character, with `behind`
after it. -/
inductive PlainItem (behind : List Char) : List Char → Prop
  | quoted {s : List Char} : Quoted s → PlainItem behind s
  | lineComment {s : List Char} : LineComment s → Text.startsIn isLineTerminator behind →
      PlainItem behind s
  | blockComment {s : List Char} : BlockComment s → PlainItem behind s
  | single {c : Char} : c ∉ ['\x7b', '\x7d', '"', '\'', '\x60'] →
      (c = '/' → Text.startsIn (fun d ↦ d == '/' || d == '*') behind = false) →
      PlainItem behind [c]

mutual

/-- Code in curly brackets. -/
inductive Code : List Char → Prop
  | mk {items : List Char} : Items items → Code ('\x7b' :: (items ++ ['\x7d']))

inductive Items : List Char → Prop
  | nil : Items []
  | code {s t : List Char} : Code s → Items t → Items (s ++ t)
  | template {s t : List Char} : Template s → Items t → Items (s ++ t)
  | plain {s t : List Char} : PlainItem t s → Items t → Items (s ++ t)

inductive Template : List Char → Prop
  | mk {parts : List Char} : TemplateParts parts → Template ('\x60' :: (parts ++ ['\x60']))

inductive TemplateParts : List Char → Prop
  | nil : TemplateParts []
  | escaped {c : Char} {t : List Char} : TemplateParts t → TemplateParts ('\\' :: c :: t)
  | substitution {s t : List Char} : Code s → TemplateParts t → TemplateParts ('$' :: (s ++ t))
  | plain {c : Char} {t : List Char} : c ≠ '\x60' → c ≠ '\\' →
      (c = '$' → Text.startsIn (· == '\x7b') t = false) → TemplateParts t → TemplateParts (c :: t)

end

end Highlight.JavaScript.Grammar
