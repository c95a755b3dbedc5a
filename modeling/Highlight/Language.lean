import Highlight.CFamily.Scan
import Highlight.Html.Scan
import Highlight.JavaScript.Scan
import Highlight.Json.Scan
import Highlight.Xml.Scan

/-!
# Languages

The closed set of languages, the selectors by which they are known, and how each is read.
-/

namespace Highlight

variable [Text.IdentifierClasses]

inductive Language where
  | xml
  | html
  | c
  | cpp
  | javaScript
  | json
  deriving DecidableEq, Repr, Inhabited

namespace Language

/-- All languages, in the order in which they are listed. -/
def all : List Language := [xml, html, c, cpp, javaScript, json]

def name : Language → String
  | xml => "xml"
  | html => "html"
  | c => "c"
  | cpp => "cpp"
  | javaScript => "javascript"
  | json => "json"

/-- The selectors of a language. They are also the extensions of its files. -/
def selectors : Language → List String
  | xml => ["xml", "svg", "xsd", "xsl", "xslt", "rss", "atom"]
  | html => ["html", "htm", "xhtml"]
  | c => ["c", "h"]
  | cpp => ["cpp", "c++", "cxx", "cc", "hpp", "hxx", "hh"]
  | javaScript => ["js", "javascript", "mjs", "cjs", "jsx"]
  | json => ["json", "jsonc"]

/-- The language that a selector names; capitals do not matter. -/
def ofSelector? (selector : String) : Option Language :=
  all.find? fun language ↦
    language.selectors.any fun name ↦ Text.sameIgnoringCase name.toList selector.toList

/-- The pieces of a text in the language. Together they cover the text as far as it can be read. -/
def scan : Language → (strict : Bool) → List Char → List (Piece Kind)
  | xml, _ => Xml.scan
  | html, _ => Html.scan
  | c, strict => CFamily.scan .c strict
  | cpp, strict => CFamily.scan .cpp strict
  | javaScript, strict => JavaScript.scan strict
  | json, strict => Json.scan strict

end Language

end Highlight
