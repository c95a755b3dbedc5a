import Highlight.Cli.Command
import Highlight.Cli.Path
import Highlight.Run

/-!
# Running commands

A command writes to standard output and standard error and ends with a code: the status of the scan,
or a code of its own where the file cannot be read.
-/

namespace Highlight.Cli

variable [Text.IdentifierClasses]

/-- What comes of reading a file. -/
inductive FileContent where
  /-- Nothing can be found under the path. -/
  | missing
  /-- There is something, but it cannot be read. -/
  | unreadable (reason : String)
  | text (content : String)
  deriving DecidableEq, Repr

def FileContent.ofBytes (bytes : ByteArray) : FileContent :=
  match String.fromUTF8? bytes with
  | some content => text content
  | none => unreadable "stream did not contain valid UTF-8"

/-- What a command leaves behind. -/
structure Output where
  code : Nat := 0
  stdout : String := ""
  stderr : String := ""
  deriving DecidableEq, Repr

def unreadableCode : Nat := 4

def errorLine (message : String) : String := "Error: " ++ message ++ "\n"

def Output.unreadable (message : String) : Output :=
  { code := unreadableCode, stderr := errorLine message }

/-- The outcome of a scan that did not complete, after what was written before. -/
def Output.failed (path stdout : String) (error : HighlightError) : Output :=
  { code := error.status.toNumber, stdout, stderr := errorLine (path ++ ": " ++ error.message) }

/-- The language of a target: the one its selector names, or else the extension of its path. -/
def Target.language (target : Target) : Except HighlightError Language :=
  Language.select (target.selector?.getD ((Path.extension? target.path).getD ""))

/-- Reads a target and goes on with its tokens and the result. The language is settled before the
file is touched. -/
def withScan (readFile : String → FileContent) (target : Target) (coalescing : Bool)
    (report : List Char → Sink → Except HighlightError Unit → Output) : Output :=
  match target.language with
  | .error error => .failed target.path "" error
  | .ok language =>
    match readFile target.path with
    | .missing => .unreadable ("file not found: " ++ target.path)
    | .unreadable reason => .unreadable ("reading " ++ target.path ++ ": " ++ reason)
    | .text content =>
      let source := content.toList
      let (sink, result) :=
        highlight language { coalescing, strict := target.strict } source .empty
      report source sink result

/-- The line of a token: where it begins, how long it is, the id of its kind and its text, which is
escaped so that it stays on the line. -/
def tokenLine (source : List Char) (token : Token) : List Char :=
  (Nat.repr token.begin).toList ++ ['\t'] ++ (Nat.repr token.length).toList ++ ['\t'] ++
    token.kind.shortId.toList ++ ['\t'] ++ Text.escaped (token.text source) ++ ['\n']

def listing (source : List Char) (tokens : List Token) : String :=
  String.ofList (tokens.flatMap (tokenLine source))

/-- The line of a language: its name and its selectors. -/
def languageLine (language : Language) : String :=
  language.name ++ "\t" ++ ", ".intercalate language.selectors ++ "\n"

/-- What the command `tokens` reports. Tokens are listed also where the scan did not complete. -/
def reportTokens (path : String) (source : List Char) (sink : Sink) :
    Except HighlightError Unit → Output
  | .ok () => { stdout := listing source sink.tokens.toList }
  | .error error => .failed path (listing source sink.tokens.toList) error

def reportCheck (path : String) (_ : List Char) (sink : Sink) : Except HighlightError Unit → Output
  | .ok () =>
    { stderr := "OK: " ++ path ++ " (" ++ Nat.repr sink.tokens.size ++ " tokens)\n" }
  | .error error => .failed path "" error

/-- Runs a command with a way to read files. -/
def Command.run (readFile : String → FileContent) : Command → Output
  | .tokens target coalescing =>
    withScan readFile target coalescing (reportTokens target.path)
  | .check target => withScan readFile target false (reportCheck target.path)
  | .langs => { stdout := String.join (Language.all.map languageLine) }

end Highlight.Cli
