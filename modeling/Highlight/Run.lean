import Highlight.Cursor.Basic
import Highlight.Language
import Highlight.Text.Escaped

/-!
# Highlighting

Reads a source in a language and adds its tokens to a sink, as a scan of its own. What goes wrong is
an error with a status and a message.
-/

namespace Highlight

variable [Text.IdentifierClasses]

/-- The outcome of a scan as a number. -/
inductive Status where
  | ok
  | badCode
  | badLanguage
  | badState
  deriving DecidableEq, Repr

def Status.toNumber : Status → Nat
  | ok => 0
  | badCode => 1
  | badLanguage => 2
  | badState => 3

/-- Why a scan did not complete. -/
inductive HighlightError where
  /-- The source cannot be read to its end. The sink holds the tokens before the place where reading
  stopped. -/
  | badCode (language : Language)
  /-- No language has this selector. -/
  | badLanguage (selector : String)
  /-- A token was out of order. -/
  | badState (language : Language)
  deriving DecidableEq, Repr

namespace HighlightError

def status : HighlightError → Status
  | badCode _ => .badCode
  | badLanguage _ => .badLanguage
  | badState _ => .badState

def message : HighlightError → String
  | badCode language => language.name ++ " source could not be fully highlighted"
  | badLanguage selector =>
    "unknown language: " ++ String.ofList (Text.quoted selector.toList)
  | badState language =>
    "internal error while highlighting " ++ language.name ++ ": token invariant violated"

end HighlightError

/-- The language that a selector names, or the error that there is none. -/
def Language.select (selector : String) : Except HighlightError Language :=
  match ofSelector? selector with
  | some language => .ok language
  | none => .error (.badLanguage selector)

/-- Reads a source into the current scan of the sink. Also says whether the source was read to its
end. -/
def Language.scanInto (language : Language) (options : Options) (source : List Char) (sink : Sink) :
    Sink × Bool :=
  let cursor := (Cursor.ofSource sink source options).read (language.scan options.strict source)
  (cursor.sink, cursor.atEnd)

/-- The result of a scan, by whether a token was refused and whether the source was read to its
end. -/
def Language.result (language : Language) (poisoned completed : Bool) :
    Except HighlightError Unit :=
  if poisoned then .error (.badState language)
  else if completed then .ok ()
  else .error (.badCode language)

/-- Reads a source as a new scan of the sink. -/
def highlight (language : Language) (options : Options) (source : List Char) (sink : Sink) :
    Sink × Except HighlightError Unit :=
  let (sink, completed) := language.scanInto options source sink.startScan
  (sink, language.result sink.poisoned completed)

/-- Reads a source in the language that a selector names. An unknown selector leaves the sink as it
is. -/
def highlightNamed (selector : String) (options : Options) (source : List Char) (sink : Sink) :
    Sink × Except HighlightError Unit :=
  match Language.select selector with
  | .ok language => highlight language options source sink
  | .error error => (sink, .error error)

end Highlight
